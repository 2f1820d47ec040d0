import EngramDB.Python.DiskSlotIndex.Build

/-!
# The slot index in memory

`SlotIndex` keeps the keys of all tuples in one sorted array, next to their slots, and finds a tuple
by binary search. `DiskSlotIndex` distributes the tuples over the files of buckets. Both find the
same slots.

The arrays of numpy are modelled by lists. Keys of raw bytes are compared as bytes, and the sort
keeps equal keys in their order. Saving and loading are left out, and so are the statistics.

* `Indexes.lookupAll_eq`, `Indexes.lookup_eq`: a lookup answers by the entries with its key;
* `interchangeable`: the index in memory and the index on disk answer alike, whatever was looked up
  before.
-/

namespace EngramDB

open SlotIndex
open DiskSlotIndex (tupleOf rowKey entryRows entrySlots entryRecords entryContent storedSlots)

namespace Py

/-- An entry of an array of type `int64`. -/
def int64 (x : ℤ) : Py ℤ := if -2 ^ 63 ≤ x ∧ x < 2 ^ 63 then .ok x else .error .overflowError

/-- Entries that fit into 64 bits with a sign (`h`) are kept as they are. -/
theorem mapM_int64 {xs : List ℤ} (h : ∀ x ∈ xs, -2 ^ 63 ≤ x ∧ x < 2 ^ 63) :
    xs.mapM int64 = .ok xs := by
  have hkeep : ∀ x ∈ xs, int64 x = .ok (id x) := fun x hx => if_pos (h x hx)
  rw [Except.mapM_eq_ok hkeep, List.map_id]

end Py

/-- An array of row ids with two axes. -/
structure RowArray where
  /-- The rows. -/
  rows : List (List ℤ)
  /-- Entries of a row. -/
  heads : ℕ
  /-- Every row has as many entries. -/
  wide : ∀ row ∈ rows, row.length = heads

/-- A slot index in memory. -/
structure PySlotIndex where
  /-- Row ids of a tuple. -/
  heads : ℕ
  /-- The keys of all tuples, sorted. -/
  sortedKeys : List Bytes
  /-- The slots in the order of the keys. -/
  sortedSlots : List ℤ
  /-- Every key has a slot. -/
  length_eq : sortedSlots.length = sortedKeys.length

namespace PySlotIndex

/-- The bytes of a row of type `int64`, in two's complement. -/
def rowBytes (row : List ℤ) : Bytes :=
  row.flatMap fun x => LittleEndian.encode 8 (x % 2 ^ 64).toNat

/-- The keys with their slots, in the order of the keys. -/
def sortEntries (rows : List (List ℤ)) (slots : List ℤ) : List (Bytes × ℤ) :=
  ((rows.map rowBytes).zip slots).insertionSort fun a b => a.1 ≤ b.1

/-- Sort the keys, and the slots with them. -/
def rebuildSorted (heads : ℕ) (rows : List (List ℤ)) (slots : List ℤ) : PySlotIndex where
  heads := heads
  sortedKeys := (sortEntries rows slots).map Prod.fst
  sortedSlots := (sortEntries rows slots).map Prod.snd
  length_eq := by rw [List.length_map, List.length_map]

/-- The constructor. The slots are the numbers of the rows when none are given. -/
def new (rowids : RowArray) (slots : Option (List ℤ)) (heads : Option ℤ) : Py PySlotIndex := do
  -- the conversion to `int64` comes before any check
  let rows ← rowids.rows.mapM fun row => row.mapM Py.int64
  if rowids.heads = 0 then throw (.valueError "rowids must have at least one head")
  match heads with
  | some h =>
    if h ≠ rowids.heads then
      throw (.valueError s!"heads={h} does not match rowids shape {rowids.heads}")
  | none => pure ()
  let slots ← (slots.getD ((List.range rows.length).map Nat.cast)).mapM Py.int64
  if slots.length ≠ rows.length then
    throw (.valueError s!"slots length {slots.length} != rowids length {rows.length}")
  return rebuildSorted rowids.heads rows slots

variable (mem : PySlotIndex)

/-- The key of a row. -/
def keyFor (row : List ℤ) : Py Bytes := do
  let arr ← row.mapM Py.int64
  if arr.length ≠ mem.heads then
    throw (.valueError s!"expected a rowid tuple of length {mem.heads}, got ({arr.length},)")
  return rowBytes arr

/-- `np.searchsorted(keys, key)`. -/
def searchsorted (key : Bytes) : ℕ :=
  SortedSearch.partitionPoint (fun k => decide (k < key)) mem.sortedKeys

/-- `np.searchsorted(keys, key, side="right")`. -/
def searchsortedRight (key : Bytes) : ℕ :=
  SortedSearch.partitionPoint (fun k => decide (k ≤ key)) mem.sortedKeys

/-- A slot of a row. -/
def lookup (row : List ℤ) : Py ℤ := do
  let key ← mem.keyFor row
  let pos := mem.searchsorted key
  if mem.sortedKeys[pos]? = some key then Py.item mem.sortedSlots pos else throw .keyError

/-- All slots of a row. -/
def lookupAll (row : List ℤ) : Py (List ℤ) := do
  let key ← mem.keyFor row
  let start := mem.searchsorted key
  let stop := mem.searchsortedRight key
  if start = stop then throw .keyError
  return (mem.sortedSlots.drop start).take (stop - start)

end PySlotIndex

/-- A tuple of sixteen row ids that are not negative and fit into an array of type `int64`. -/
def IsTuple (row : List ℤ) : Prop := row.length = 16 ∧ ∀ x ∈ row, 0 ≤ x ∧ x < 2 ^ 63

/-- Two indexes answer alike: both find a tuple, at the same slots in some order, and name one of
them, or neither finds it. -/
inductive AnswersAlike (all : Py (List ℤ)) (one : Py ℤ) (all' : Py (List ℕ)) (one' : Py ℕ) : Prop
  /-- The tuple is there. -/
  | present {found : List ℤ} {found' : List ℕ} (hall : all = .ok found) (hall' : all' = .ok found')
      (hperm : (found'.map Nat.cast).Perm found) (hone : ∃ slot ∈ found, one = .ok slot)
      (hone' : ∃ slot ∈ found', one' = .ok slot)
  /-- The tuple is not there. -/
  | absent (hall : all = .error .keyError) (hone : one = .error .keyError)
      (hall' : all' = .error .keyError) (hone' : one' = .error .keyError)

namespace PySlotIndex

/-! ### Lookups -/

section Lookups

variable {entries : List (Bytes × ℤ)} {key : Bytes}

/-- The slots of a key in sorted entries. -/
def found (entries : List (Bytes × ℤ)) (key : Bytes) : List ℤ :=
  (entries.filter fun e => decide (e.1 = key)).map Prod.snd

/-- An index of sorted entries. -/
structure Indexes (entries : List (Bytes × ℤ)) (mem : PySlotIndex) : Prop where
  /-- The entries are sorted by their keys. -/
  sorted : entries.Pairwise fun a b => a.1 ≤ b.1
  /-- The keys are those of the entries. -/
  sortedKeys_eq : mem.sortedKeys = entries.map Prod.fst
  /-- The slots are those of the entries. -/
  sortedSlots_eq : mem.sortedSlots = entries.map Prod.snd

variable {mem : PySlotIndex}

/-- The search from the left finds the number of entries whose keys are smaller. -/
theorem Indexes.searchsorted_eq (h : Indexes entries mem) (key : Bytes) : mem.searchsorted key =
    SortedSearch.partitionPoint (fun e : Bytes × ℤ => decide (e.1 < key)) entries := by
  rw [searchsorted, h.sortedKeys_eq, SortedSearch.partitionPoint_map]

/-- The search from the right finds the number of entries whose keys are not greater. -/
private theorem Indexes.searchsortedRight_eq (h : Indexes entries mem) (key : Bytes) :
    mem.searchsortedRight key =
      SortedSearch.partitionPoint (fun e : Bytes × ℤ => decide (e.1 ≤ key)) entries := by
  rw [searchsortedRight, h.sortedKeys_eq, SortedSearch.partitionPoint_map]

/-- A lookup of all slots answers by the entries with the key. -/
theorem Indexes.lookupAll_eq (h : Indexes entries mem) {row : List ℤ}
    (hkey : mem.keyFor row = .ok key) :
    mem.lookupAll row =
      if found entries key = [] then .error .keyError else .ok (found entries key) := by
  have hslots := SortedSearch.take_drop_partitionPoint h.sorted key
  have hempty := SortedSearch.partitionPoint_eq_iff h.sorted key
  rw [← h.searchsorted_eq, ← h.searchsortedRight_eq] at hslots hempty
  have hfound : (mem.sortedSlots.drop (mem.searchsorted key)).take
      (mem.searchsortedRight key - mem.searchsorted key) = found entries key := by
    rw [h.sortedSlots_eq, ← List.map_drop, ← List.map_take, hslots, found]
  have hnil : found entries key = [] ↔ mem.searchsorted key = mem.searchsortedRight key := by
    rw [hempty, found, List.map_eq_nil_iff]
  rw [lookupAll, hkey, Except.ok_bind]
  dsimp only
  rw [hfound]
  simp only [hnil]
  split_ifs <;> rfl

/-- A lookup of one slot answers by the first of the entries. -/
theorem Indexes.lookup_eq (h : Indexes entries mem) {row : List ℤ}
    (hkey : mem.keyFor row = .ok key) :
    mem.lookup row = Py.firstSlot (found entries key) := by
  have hbehind := SortedSearch.takeWhile_drop_partitionPoint h.sorted key
  rw [← h.searchsorted_eq] at hbehind
  have hget : entries[mem.searchsorted key]? = (entries.drop (mem.searchsorted key)).head? := by
    rw [List.head?_drop]
  rw [lookup, hkey, Except.ok_bind]
  dsimp only
  rw [Py.item, h.sortedKeys_eq, h.sortedSlots_eq, List.getElem?_map, List.getElem?_map, hget, found,
    ← hbehind]
  cases entries.drop (mem.searchsorted key) with
  | nil => rfl
  | cons e rest =>
    rw [List.takeWhile_cons]
    by_cases hfirst : e.1 = key
    · simp [hfirst]
      rfl
    · simp [hfirst]
      rfl

/-- Sorting the rows and their slots indexes the sorted entries. -/
private theorem indexes_rebuildSorted (heads : ℕ) (rows : List (List ℤ)) (slots : List ℤ) :
    Indexes (sortEntries rows slots) (rebuildSorted heads rows slots) := by
  have : Std.Total fun a b : Bytes × ℤ => a.1 ≤ b.1 := ⟨fun a b => le_total a.1 b.1⟩
  have : IsTrans (Bytes × ℤ) fun a b => a.1 ≤ b.1 := ⟨fun a b c => le_trans⟩
  exact ⟨List.pairwise_insertionSort _ _, rfl, rfl⟩

/-- Sorting the entries only changes the order of the slots of a key. -/
private theorem found_sortEntries_perm (rows : List (List ℤ)) (slots : List ℤ) (key : Bytes) :
    (found (sortEntries rows slots) key).Perm (found ((rows.map rowBytes).zip slots) key) :=
  ((List.perm_insertionSort _ _).filter _).map _

end Lookups

end PySlotIndex

/-! ### Tuples -/

section Tuples

variable {row : List ℤ}

/-- A number of a gram does not fit into an array of type `int64`. -/
def TooLarge (parts : Gram) : Prop := ∃ v ∈ parts.1, 2 ^ 63 ≤ v.toNat

/-- Sixteen numbers are a gram, as numbers of 64 bits without a sign. -/
theorem exists_gram (hlength : row.length = 16) : ∃ parts : Gram,
    PySlotIndex.rowBytes row = keyFromGram parts.1 ∧ tupleOf parts = row.map (· % 2 ^ 64) := by
  have hword : ∀ x : ℤ, (UInt64.ofNat (x % 2 ^ 64).toNat).toNat = (x % 2 ^ 64).toNat := by
    intro x
    have hlt : (x % 2 ^ 64).toNat < 2 ^ 64 := by omega
    exact UInt64.toNat_ofNat_of_lt' hlt
  refine ⟨⟨row.map fun x => UInt64.ofNat (x % 2 ^ 64).toNat, by rw [List.length_map, hlength]; rfl⟩,
    ?_, ?_⟩
  · simp only [PySlotIndex.rowBytes, keyFromGram, List.flatMap_map, hword]
  · rw [tupleOf, List.map_map]
    refine List.map_congr_left fun x _ => ?_
    rw [Function.comp_apply, hword]
    omega

/-- Both indexes have the same key for a gram. -/
theorem rowBytes_tupleOf (parts : Gram) :
    PySlotIndex.rowBytes (tupleOf parts) = keyFromGram parts.1 := by
  have hword : ∀ v : UInt64, ((v.toNat : ℤ) % 2 ^ 64).toNat = v.toNat := by
    intro v
    have hlt := v.toNat_lt
    omega
  simp only [PySlotIndex.rowBytes, tupleOf, List.flatMap_map, hword, keyFromGram]

/-- A tuple (`h`) is the row of sixteen words of some gram. -/
theorem IsTuple.exists_gram (h : IsTuple row) : ∃ parts : Gram, row = tupleOf parts := by
  obtain ⟨parts, -, hrow⟩ := EngramDB.exists_gram h.1
  refine ⟨parts, ?_⟩
  rw [hrow]
  refine (List.map_id row).symm.trans (List.map_congr_left fun x hx => ?_)
  have hx' := h.2 x hx
  exact (Int.emod_eq_of_lt hx'.1 (by omega)).symm

/-- Numbers of 64 bits are a tuple unless one of them is too large. -/
private theorem isTuple_tupleOf {parts : Gram} (h : ¬ TooLarge parts) :
    IsTuple (tupleOf parts) := by
  refine ⟨by rw [tupleOf, List.length_map, parts.2]; rfl, fun x hx => ?_⟩
  obtain ⟨v, hv, rfl⟩ := List.mem_map.mp hx
  have hlt : v.toNat < 2 ^ 63 := by
    by_contra hlarge
    exact h ⟨v, hv, Nat.le_of_not_lt hlarge⟩
  omega

/-- The parts of a tuple are not too large for a key. -/
private theorem not_tooLarge {parts : Gram} (h : IsTuple (tupleOf parts)) : ¬ TooLarge parts := by
  rintro ⟨v, hv, hlarge⟩
  have hlt := (h.2 v.toNat (List.mem_map_of_mem hv)).2
  omega

/-- The numbers of a tuple fit into 64 bits with a sign. -/
theorem IsTuple.fits (h : IsTuple row) : ∀ x ∈ row, -2 ^ 63 ≤ x ∧ x < 2 ^ 63 := by
  intro x hx
  have hx' := h.2 x hx
  omega

/-- The index in memory has the key of a tuple. -/
private theorem keyFor_of_isTuple {mem : PySlotIndex} (hheads : mem.heads = 16) {parts : Gram}
    (h : IsTuple (tupleOf parts)) : mem.keyFor (tupleOf parts) = .ok (keyFromGram parts.1) := by
  rw [PySlotIndex.keyFor, Py.mapM_int64 h.fits, Except.ok_bind, hheads, if_neg (not_not_intro h.1),
    rowBytes_tupleOf]
  rfl

/-- A row that is no tuple is refused, or has the key of a gram that is too large. -/
private theorem keyFor_of_not_isTuple {mem : PySlotIndex} (hheads : mem.heads = 16)
    (h : ¬ IsTuple row) :
    (∃ e, mem.keyFor row = .error e) ∨
      ∃ parts : Gram, mem.keyFor row = .ok (keyFromGram parts.1) ∧ TooLarge parts := by
  by_cases hfits : ∀ x ∈ row, -2 ^ 63 ≤ x ∧ x < 2 ^ 63
  · rw [PySlotIndex.keyFor, Py.mapM_int64 hfits, Except.ok_bind, hheads]
    by_cases hlength : row.length = 16
    · rw [if_neg (not_not_intro hlength)]
      obtain ⟨parts, hbytes, hrow⟩ := exists_gram hlength
      refine .inr ⟨parts, by rw [hbytes]; rfl, ?_⟩
      -- a negative number
      obtain ⟨x, hx, hneg⟩ : ∃ x ∈ row, x < 0 := by
        by_contra hall
        push Not at hall
        exact h ⟨hlength, fun x hx => ⟨hall x hx, (hfits x hx).2⟩⟩
      have hmem : x % 2 ^ 64 ∈ tupleOf parts := by
        rw [hrow]
        exact List.mem_map_of_mem hx
      obtain ⟨v, hv, heq⟩ := List.mem_map.mp hmem
      have hlow := (hfits x hx).1
      exact ⟨v, hv, by omega⟩
    · rw [if_pos hlength]
      exact .inl ⟨_, rfl⟩
  · left
    cases harr : row.mapM Py.int64 with
    | error e => exact ⟨e, by rw [PySlotIndex.keyFor, harr]; rfl⟩
    | ok arr =>
      refine absurd (fun x hx => ?_) hfits
      obtain ⟨b, hb⟩ := Except.forall_of_mapM_eq_ok harr x hx
      rw [Py.int64] at hb
      by_contra hout
      rw [if_neg hout] at hb
      cases hb

/-- The index on disk has a key for numbers of 64 bits without a sign. -/
private theorem rowKey_cases (row : List ℤ) :
    (∃ e, rowKey row = .error e) ∨ ∃ parts : Gram, row = tupleOf parts := by
  cases hkey : rowKey row with
  | error e => exact .inl ⟨e, rfl⟩
  | ok key =>
    right
    rw [rowKey] at hkey
    dsimp only at hkey
    split_ifs at hkey with hlength
    · cases hkey
    · obtain ⟨words, hwords, -⟩ := Except.bind_eq_ok_iff.mp hkey
      obtain ⟨parts, -, hrow⟩ := exists_gram (not_not.mp hlength)
      refine ⟨parts, ?_⟩
      rw [hrow]
      refine (List.map_id row).symm.trans (List.map_congr_left fun x hx => ?_)
      obtain ⟨b, hb⟩ := Except.forall_of_mapM_eq_ok hwords x hx
      have hx' : 0 ≤ x ∧ x < 2 ^ 64 := by
        by_contra hout
        rw [Py.packU64, if_neg hout] at hb
        cases hb
      exact (Int.emod_eq_of_lt hx'.1 hx'.2).symm

end Tuples

/-! ### The same entries in both indexes -/

section Entries

variable {entries : List (Gram × ℕ)} {parts : Gram}

/-- The slots of a tuple among the entries, in their order. -/
def slotsAt (entries : List (Gram × ℕ)) (parts : Gram) : List ℕ :=
  (entries.filter fun e => decide (e.1 = parts)).map Prod.snd

/-- Grams with the same key are the same. -/
theorem keyFromGram_eq_iff {parts' : Gram} :
    keyFromGram parts'.1 = keyFromGram parts.1 ↔ parts' = parts := by
  rw [keyFromGram_injective.eq_iff, Subtype.ext_iff]

/-- A tuple that is too large is not among the entries. -/
theorem slotsAt_of_tooLarge (hgrams : ∀ e ∈ entries, ¬ TooLarge e.1) (h : TooLarge parts) :
    slotsAt entries parts = [] := by
  rw [slotsAt, List.map_eq_nil_iff, List.filter_eq_nil_iff]
  intro e he heq
  rw [decide_eq_true_eq] at heq
  exact hgrams e he (heq ▸ h)

/-- The index in memory has the slots of a tuple. -/
theorem found_perm (entries : List (Gram × ℕ)) (parts : Gram) :
    (PySlotIndex.found (PySlotIndex.sortEntries (entryRows entries) (entrySlots entries))
      (keyFromGram parts.1)).Perm ((slotsAt entries parts).map Nat.cast) := by
  refine (PySlotIndex.found_sortEntries_perm _ _ _).trans (List.Perm.of_eq ?_)
  rw [entryRows, entrySlots, List.map_map, List.zip_map', PySlotIndex.found, List.filter_map,
    List.map_map, slotsAt, List.map_map]
  refine congrArg₂ List.map rfl (List.filter_congr fun e _ => ?_)
  rw [Function.comp_apply, Function.comp_apply, rowBytes_tupleOf, decide_eq_decide]
  exact keyFromGram_eq_iff

/-- The index on disk has the slots of a tuple. -/
theorem storedSlots_perm (blake2b : Bytes → Bytes) (hashName : String) (numBuckets : ℕ)
    (hslots : ∀ e ∈ entries, e.2 < 2 ^ 64) (parts : Gram) :
    (storedSlots blake2b hashName numBuckets (entryContent blake2b hashName numBuckets entries)
      parts).Perm (slotsAt entries parts) := by
  rw [storedSlots, entryContent, sortedBucket, matching]
  refine (((perm_sortRecords _).filter _).map _).trans (List.Perm.of_eq ?_)
  have hkey : ∀ e : Gram × ℕ, recordKey (record e.1.1 e.2) = keyFromGram e.1.1 := fun e =>
    recordKey_record e.1.2
  -- a record with the key is in the bucket of the key
  have hfilter : ((entryRecords entries).filter fun rec =>
        decide (DiskSlotIndex.recordBucket blake2b hashName numBuckets rec =
          DiskSlotIndex.hashOf blake2b hashName (keyFromGram parts.1) % numBuckets)).filter
        (fun rec => decide (recordKey rec = keyFromGram parts.1)) =
      (entries.filter fun e => decide (e.1 = parts)).map fun e => record e.1.1 e.2 := by
    rw [List.filter_filter, entryRecords, List.filter_map]
    refine congrArg _ (List.filter_congr fun e _ => ?_)
    rw [Bool.eq_iff_iff]
    simp only [Function.comp_apply, hkey, DiskSlotIndex.recordBucket, Bool.and_eq_true,
      decide_eq_true_eq, keyFromGram_eq_iff]
    refine and_iff_left_of_imp fun heq => ?_
    rw [heq]
  rw [hfilter, List.map_map, slotsAt]
  refine List.map_congr_left fun e he => ?_
  exact slotOfRecord_record e.1.2 (hslots e (List.mem_of_mem_filter he))

end Entries

/-- Neither index answers. -/
structure NoAnswer (all : Py (List ℤ)) (one : Py ℤ) (all' : Py (List ℕ)) (one' : Py ℕ) : Prop where
  all : ∃ e, all = .error e
  one : ∃ e, one = .error e
  all' : ∃ e, all' = .error e
  one' : ∃ e, one' = .error e

/-- Whatever was looked up before, the index on disk answers as the index in memory does, whether it
is the one that was built or one that is opened later with another cache. A row that is no tuple is
answered by neither. -/
structure Interchangeable (blake2b : Bytes → Bytes) (mem : PySlotIndex) (built : DiskSlotIndex)
    (dir : IndexDir) : Prop where
  tuple : ∀ ix, (ix = built ∨ ∃ cacheSize, DiskSlotIndex.openDir dir cacheSize = .ok ix) →
    ∀ calls row, IsTuple row → AnswersAlike (mem.lookupAll row) (mem.lookup row)
      (DiskSlotIndex.lookupAll blake2b row (DiskSlotIndex.after blake2b ix calls)).1
      (DiskSlotIndex.lookup blake2b row (DiskSlotIndex.after blake2b ix calls)).1
  other : ∀ ix, (ix = built ∨ ∃ cacheSize, DiskSlotIndex.openDir dir cacheSize = .ok ix) →
    ∀ calls row, ¬ IsTuple row → NoAnswer (mem.lookupAll row) (mem.lookup row)
      (DiskSlotIndex.lookupAll blake2b row (DiskSlotIndex.after blake2b ix calls)).1
      (DiskSlotIndex.lookup blake2b row (DiskSlotIndex.after blake2b ix calls)).1

section Interchange

variable {entries : List (Gram × ℕ)} {mem : PySlotIndex} {ix : DiskSlotIndex}
  {blake2b : Bytes → Bytes}
  {hashName : String} {numBuckets : ℕ} {row : List ℤ}

/-- Answers by lists of slots that differ in their order alone. -/
private theorem answersAlike_of_perm {found : List ℤ} {found' : List ℕ}
    (hperm : (found'.map Nat.cast).Perm found)
    {all : Py (List ℤ)} {one : Py ℤ} {all' : Py (List ℕ)} {one' : Py ℕ}
    (hall : all = if found = [] then .error .keyError else .ok found)
    (hone : one = Py.firstSlot found)
    (hall' : all' = if found' = [] then .error .keyError else .ok found')
    (hone' : one' = Py.firstSlot found') :
    AnswersAlike all one all' one' := by
  cases found with
  | nil =>
    obtain rfl : found' = [] := List.map_eq_nil_iff.mp hperm.eq_nil
    exact .absent hall hone hall' hone'
  | cons slot rest =>
    cases found' with
    | nil => cases hperm.symm.eq_nil
    | cons slot' rest' =>
      exact .present hall hall' hperm ⟨slot, List.mem_cons_self, hone⟩
        ⟨slot', List.mem_cons_self, hone'⟩

/-- Both indexes of the same entries answer alike. -/
private theorem answersAlike (hslots : ∀ e ∈ entries, e.2 < 2 ^ 64)
    (hmem : PySlotIndex.Indexes
      (PySlotIndex.sortEntries (entryRows entries) (entrySlots entries)) mem)
    (hix : DiskSlotIndex.Serves hashName numBuckets
      (entryContent blake2b hashName numBuckets entries) ix)
    {parts : Gram} (hkey : mem.keyFor (tupleOf parts) = .ok (keyFromGram parts.1)) :
    AnswersAlike (mem.lookupAll (tupleOf parts)) (mem.lookup (tupleOf parts))
      (DiskSlotIndex.lookupAll blake2b (tupleOf parts) ix).1
      (DiskSlotIndex.lookup blake2b (tupleOf parts) ix).1 :=
  answersAlike_of_perm
    (((storedSlots_perm blake2b hashName numBuckets hslots parts).map _).trans
      (found_perm entries parts).symm)
    (hmem.lookupAll_eq hkey) (hmem.lookup_eq hkey) (hix.lookupAll blake2b parts)
    (hix.lookup blake2b parts)

/-- Neither index answers a row that is no tuple. -/
private theorem noAnswer (hgrams : ∀ e ∈ entries, ¬ TooLarge e.1)
    (hslots : ∀ e ∈ entries, e.2 < 2 ^ 64) (hheads : mem.heads = 16)
    (hmem : PySlotIndex.Indexes
      (PySlotIndex.sortEntries (entryRows entries) (entrySlots entries)) mem)
    (hix : DiskSlotIndex.Serves hashName numBuckets
      (entryContent blake2b hashName numBuckets entries) ix) (hrow : ¬ IsTuple row) :
    NoAnswer (mem.lookupAll row) (mem.lookup row) (DiskSlotIndex.lookupAll blake2b row ix).1
      (DiskSlotIndex.lookup blake2b row ix).1 := by
  have hmemory : (∃ e, mem.lookupAll row = .error e) ∧ ∃ e, mem.lookup row = .error e := by
    -- a row that is no key is refused, and one with a part too large is in no table
    obtain ⟨e, hkey⟩ | ⟨parts, hkey, hlarge⟩ := keyFor_of_not_isTuple hheads hrow
    · rw [PySlotIndex.lookupAll, PySlotIndex.lookup, hkey]
      exact ⟨⟨e, rfl⟩, e, rfl⟩
    · have hperm := found_perm entries parts
      rw [slotsAt_of_tooLarge hgrams hlarge] at hperm
      have hnil := hperm.eq_nil
      rw [hmem.lookupAll_eq hkey, hmem.lookup_eq hkey, hnil]
      exact ⟨⟨_, rfl⟩, _, rfl⟩
  have hdisk : (∃ e, (DiskSlotIndex.lookupAll blake2b row ix).1 = .error e) ∧
      ∃ e, (DiskSlotIndex.lookup blake2b row ix).1 = .error e := by
    -- on disk the parts are words, and no tuple was written with one this large
    obtain ⟨e, hkey⟩ | ⟨parts, rfl⟩ := rowKey_cases row
    · obtain ⟨hone, hall⟩ := hix.refuses hkey
      exact ⟨⟨e, hall⟩, e, hone⟩
    · have hlarge : TooLarge parts := by
        by_contra hsmall
        exact hrow (isTuple_tupleOf hsmall)
      have hperm := storedSlots_perm blake2b hashName numBuckets hslots parts
      rw [slotsAt_of_tooLarge hgrams hlarge] at hperm
      have hnil := hperm.eq_nil
      rw [hix.lookupAll, hix.lookup, hnil]
      exact ⟨⟨_, rfl⟩, _, rfl⟩
  exact ⟨hmemory.1, hmemory.2, hdisk.1, hdisk.2⟩

/-- Tuples (`hrows`) and their slots (`hslots`), as many as tuples (`hlength`), are the rows and
slots of a list of entries. -/
private theorem exists_entries {rows : List (List ℤ)} {slots : List ℤ}
    (hrows : ∀ row ∈ rows, IsTuple row)
    (hslots : ∀ slot ∈ slots, 0 ≤ slot ∧ slot < 2 ^ 63) (hlength : slots.length = rows.length) :
    ∃ entries : List (Gram × ℕ), entryRows entries = rows ∧ entrySlots entries = slots ∧
      (∀ e ∈ entries, ¬ TooLarge e.1) ∧ ∀ e ∈ entries, e.2 < 2 ^ 64 := by
  induction rows generalizing slots with
  | nil =>
    obtain rfl : slots = [] := List.length_eq_zero_iff.mp hlength
    exact ⟨[], rfl, rfl, by simp, by simp⟩
  | cons row rows ih =>
    cases slots with
    | nil => cases hlength
    | cons slot slots =>
      rw [List.forall_mem_cons] at hrows hslots
      obtain ⟨entries, rfl, rfl, hsmall, hlt⟩ := ih hrows.2 hslots.2 (by simpa using hlength)
      obtain ⟨parts, rfl⟩ := hrows.1.exists_gram
      obtain ⟨hpos, hslot⟩ := hslots.1
      refine ⟨(parts, slot.toNat) :: entries, rfl, ?_, ?_, ?_⟩
      · rw [entrySlots, List.map_cons, Int.toNat_of_nonneg hpos]
        rfl
      · exact List.forall_mem_cons.mpr ⟨not_tooLarge hrows.1, hsmall⟩
      · exact List.forall_mem_cons.mpr ⟨by omega, hlt⟩

/-- The index in memory is built from tuples and their slots. -/
private theorem PySlotIndex.new_eq_ok {rowids : RowArray} (hheads : rowids.heads = 16)
    (hrows : ∀ row ∈ rowids.rows, IsTuple row) {slots : List ℤ}
    (hslots : ∀ slot ∈ slots, 0 ≤ slot ∧ slot < 2 ^ 63)
    (hlength : slots.length = rowids.rows.length)
    {heads : Option ℤ} (hgiven : ∀ h ∈ heads, h = 16) :
    PySlotIndex.new rowids (some slots) heads = .ok (rebuildSorted 16 rowids.rows slots) := by
  have hkeep : ∀ row ∈ rowids.rows, row.mapM Py.int64 = .ok (id row) := fun row hrow =>
    Py.mapM_int64 (hrows row hrow).fits
  have hslots' : slots.mapM Py.int64 = .ok slots := by
    refine Py.mapM_int64 fun slot hslot => ?_
    have hslot' := hslots slot hslot
    omega
  rw [new, Except.mapM_eq_ok hkeep, List.map_id, Except.ok_bind, hheads, if_neg (by decide)]
  cases heads with
  | none =>
    simp only [Option.getD_some, hslots', Except.ok_bind, hlength, ne_eq,
      not_true_eq_false, if_false]
    rfl
  | some h =>
    obtain rfl := hgiven h rfl
    simp only [Option.getD_some, hslots', Except.ok_bind, hlength, Nat.cast_ofNat, ne_eq,
      not_true_eq_false, if_false]
    rfl

end Interchange

/-- The index in memory and the index on disk are interchangeable: when a build of tuples (`hrows`)
with their slots (`hslots`, `hlength`) into an empty directory returns an index (`hbuild`), the
constructor of the index in memory returns one as well, and both answer alike. -/
theorem interchangeable {rows : List (List ℤ)} {slots : List ℤ} (hrows : ∀ row ∈ rows, IsTuple row)
    (hslots : ∀ slot ∈ slots, 0 ≤ slot ∧ slot < 2 ^ 63) (hlength : slots.length = rows.length)
    {numBuckets : ℕ} (hbuckets : 1 ≤ numBuckets) {blake2b : Bytes → Bytes} {path hashName : String}
    {cacheBuckets : ℕ} {singleFile : Bool} {built : DiskSlotIndex} {dir : IndexDir}
    (hbuild : DiskSlotIndex.build blake2b rows (.empty path) 16 numBuckets cacheBuckets (some slots)
      hashName singleFile = (.ok built, dir)) {heads : Option ℤ} (hheads : ∀ h ∈ heads, h = 16) :
    ∃ mem, PySlotIndex.new ⟨rows, 16, fun row hrow => (hrows row hrow).1⟩
      (some slots) heads = .ok mem ∧
      Interchangeable blake2b mem built dir := by
  refine ⟨_, PySlotIndex.new_eq_ok rfl hrows hslots hlength hheads, ?_⟩
  obtain ⟨entries, rfl, rfl, hsmall, hlt⟩ := exists_entries hrows hslots hlength
  have hmem := PySlotIndex.indexes_rebuildSorted 16 (entryRows entries) (entrySlots entries)
  -- the index that was built and any that is opened later serve the same records
  have hserves : ∀ ix, (ix = built ∨ ∃ cacheSize, DiskSlotIndex.openDir dir cacheSize = .ok ix) →
      DiskSlotIndex.Serves hashName numBuckets
        (entryContent blake2b hashName numBuckets entries) ix := by
    intro ix hix
    obtain ⟨cacheSize, hopen⟩ : ∃ cacheSize, DiskSlotIndex.openDir dir cacheSize = .ok ix := by
      rcases hix with rfl | hix
      · exact ⟨_, DiskSlotIndex.openDir_of_build hbuild⟩
      · exact hix
    obtain ⟨ix', hopen', hserves⟩ := DiskSlotIndex.serves_of_build hbuckets hlt hbuild cacheSize
    obtain rfl : ix = ix' := Except.ok.inj (hopen.symm.trans hopen')
    exact hserves
  constructor
  · intro ix hix calls row htuple
    obtain ⟨parts, rfl⟩ := htuple.exists_gram
    exact answersAlike hlt hmem ((hserves ix hix).after blake2b calls)
      (keyFor_of_isTuple rfl htuple)
  · intro ix hix calls row hrow
    exact noAnswer hsmall hlt rfl hmem ((hserves ix hix).after blake2b calls) hrow

/-- A tuple at two slots and another one at a third. -/
theorem interchangeable_sevens :
    let rows : List (List ℤ) := [List.replicate 16 7, List.replicate 16 8, List.replicate 16 7]
    ∃ built dir, DiskSlotIndex.build (fun key => key) rows (.empty "index") 16 2 1 (some [5, 9, 3])
        "fnv1a-64" true = (.ok built, dir) ∧
      ∃ mem, PySlotIndex.new ⟨rows, 16, by decide⟩ (some [5, 9, 3]) none = .ok mem ∧
        Interchangeable (fun key => key) mem built dir := by
  intro rows
  have hrows : ∀ row ∈ rows, IsTuple row := by
    simp [rows, IsTuple]
  have hok : (DiskSlotIndex.build (fun key => key) rows (.empty "index") 16 2 1 (some [5, 9, 3])
      "fnv1a-64" true).1.isOk := by decide +kernel
  cases hbuild : DiskSlotIndex.build (fun key => key) rows (.empty "index") 16 2 1 (some [5, 9, 3])
      "fnv1a-64" true with
  | mk res dir =>
    rw [hbuild] at hok
    cases res with
    | error e => cases hok
    | ok built =>
      exact ⟨built, dir, rfl, interchangeable hrows (by decide) rfl (by decide) hbuild (by simp)⟩

end EngramDB
