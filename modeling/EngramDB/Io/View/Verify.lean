import EngramDB.Io.View.Built

/-!
# Verifying a view

`verifyView` gathers the rows of the grams from the table once more and compares them with the
records of the view. It compares the first `subGrams` records, but not more than the open view has,
and this number is the smaller one of the slots in the file and the grams in the manifest.

* `verifyGram_ok_iff`: a comparison succeeds iff the record starts with the rows of its gram;
* `verifyView_ok_iff`: a verification succeeds iff the keys cover the open view, which is not empty,
  and the comparisons that it makes succeed;
* `provesAll_iff`: a verification of as many grams as the manifest has is proof of all of them,
  unless the file was cut off behind a record.
-/

namespace EngramDB

open SlotBuffer

namespace View

/-- What the system does during a verification. -/
structure VerifyEnv where
  /-- Positional reads of the view. -/
  os : Pread
  /-- The schedule of the gather of each gram. -/
  sched : ℕ → Schedule JobResult
  /-- The text of an error. -/
  describe : IoError → String

variable (env : VerifyEnv) (g : BadgeGather)

/-- Compare a record with the rows of its gram. The buffers are those of the rows and of the
record. -/
def verifyGram (r : ViewReader) (keys : List ℕ) (bufs : Bytes × Bytes) (gi : ℕ) :
    Outcome IoError (Bytes × Bytes) := do
  let srcBuf
    ← (g.gatherPp (env.sched gi) (slot HEAD_W keys gi) bufs.1 DEFAULT_GATHER_THREADS).mapErr
    fun e => .other (env.describe e)
  let (result, viewBuf) := r.readRecord env.os gi bufs.2
  let got ← Outcome.ofExcept result
  if got < RECORD_BYTES ∨ viewBuf.take RECORD_BYTES ≠ srcBuf then
    throw (.error (.other s!"view record {gi} does not match source rows"))
  return (srcBuf, viewBuf)

/-- Number of grams that are compared. -/
def checkCount (subGrams total : ℕ) : ℕ :=
  if 0 < subGrams then min subGrams total else min total 1000

/-- Compare the records of a view with the rows of their grams. -/
def verifyView (files : ViewFiles) (keys : Option (List ℕ)) (subGrams : ℕ) :
    Outcome IoError Unit := do
  let reader ← Outcome.ofExcept (ViewReader.openFiles files)
  let n := reader.count
  if n = 0 then throw (.error (.other "视图为空"))
  let keys := keys.getD []
  if keys = [] then throw (.error (.other "verify 需要 keys 文件（每 gram 连续 16 个 rowid）"))
  let keyGrams := keys.length / HEAD_W
  if keyGrams < n then
    throw (.error (.invalidInput s!"keys 文件只有 {keyGrams} grams，不足以覆盖视图 {n} grams"))
  -- the two buffers are made once and used for every gram
  let bufs := (List.replicate RECORD_BYTES 0, List.replicate reader.slotBytes.toNat 0)
  let _ ← (List.range (checkCount subGrams (min n keyGrams))).foldlM
    (verifyGram env g reader keys) bufs
  return ()

/-! ### One comparison -/

/-- A whole table of rows of 160 bytes, whose reads deliver them. -/
structure Intact (g : BadgeGather) : Prop where
  /-- A gather hands out 160 bytes of a row. -/
  width_eq : g.layout.width = ROW_BYTES
  /-- A row is handed out whole. -/
  width_eq_rowBytes : g.layout.width = g.layout.rowBytes
  /-- A badge holds at least one row. -/
  badgeRows_pos : 0 < g.layout.badgeRows
  /-- No read is short. -/
  full : g.backend.Full
  /-- Every shard file has its rows. -/
  complete : g.Complete

/-- An intact table (`h`) serves the keys of its rows (`hkeys`). -/
theorem Intact.serves {g : BadgeGather} (h : Intact g) {keys : List ℕ}
    (hkeys : ∀ k ∈ keys, g.layout.InRange k) : Serves g keys where
  width_eq := h.width_eq
  width_le := Nat.le_of_eq h.width_eq_rowBytes
  badgeRows_pos := h.badgeRows_pos
  inRange := hkeys
  width_eq_rowBytes := h.width_eq_rowBytes
  full := h.full
  holds k hk := h.complete.holdsRow (hkeys k hk)

/-- The table has the rows of a gram, and a record starts with them. -/
def StartsWithRows (rec : Bytes) (gram : List ℕ) : Prop :=
  (∀ k ∈ gram, g.layout.InRange k) ∧ gramRows g gram <+: rec

variable {env g} {files : ViewFiles} {r : ViewReader} {keys gram : List ℕ} {subGrams : ℕ}

/-- When panics are seen, a gather of the rows of a gram returns iff the table has them, and then it
returns what is stored. -/
private theorem gatherPp_gram_ok_iff (hg : Intact g) {sched : Schedule JobResult}
    (hseen : sched.panicSeen = true)
    (hgram : gram.length = HEAD_W) {buf rows : Bytes} (hbuf : buf.length = RECORD_BYTES) :
    g.gatherPp sched gram buf DEFAULT_GATHER_THREADS = .ok rows ↔
      (∀ k ∈ gram, g.layout.InRange k) ∧ rows = gramRows g gram := by
  have hne : gram ≠ [] := List.ne_nil_of_length_pos (by rw [hgram]; decide)
  have hlen : buf.length = gram.length * g.layout.width := by
    rw [hbuf, hgram, hg.width_eq]
    rfl
  have hgather : (∀ k ∈ gram, g.layout.InRange k) →
      g.gatherPp sched gram buf DEFAULT_GATHER_THREADS = .ok (gramRows g gram) := fun hin =>
    BadgeGather.gatherPp_of_full hg.full hg.badgeRows_pos hg.width_eq_rowBytes sched hne
      (fun k hk => ⟨hin k hk, hg.complete.holdsRow (hin k hk)⟩) hlen _
  constructor
  · intro h
    have hin := BadgeGather.inRange_of_gatherPp_ok hseen h
    rw [hgather hin] at h
    cases h
    exact ⟨hin, rfl⟩
  · rintro ⟨hin, rfl⟩
    exact hgather hin

/-- The rows of a gram are as long as a record. -/
theorem Intact.length_gramRows (hg : Intact g) (hgram : gram.length = HEAD_W)
    (hin : ∀ k ∈ gram, g.layout.InRange k) : (gramRows g gram).length = RECORD_BYTES := by
  have hrows : ∀ p ∈ gram.map g.storedRow, p.length = ROW_BYTES := by
    intro p hp
    obtain ⟨k, hk, rfl⟩ := List.mem_map.mp hp
    exact (hg.serves hin).length_storedRow hk
  rw [gramRows, length_flatten hrows, List.length_map, hgram]
  rfl

/-- A comparison succeeds iff the record starts with the rows of its gram. Then both are in the
buffers. -/
theorem verifyGram_ok_iff (hg : Intact g) (hos : env.os.Delivers)
    (hseen : ∀ i, (env.sched i).panicSeen = true)
    {i : ℕ} (hi : i < r.count) (hkeys : (i + 1) * HEAD_W ≤ keys.length) {bufs bufs' : Bytes × Bytes}
    (hsrc : bufs.1.length = RECORD_BYTES) (hview : bufs.2.length = r.slotBytes.toNat) :
    verifyGram env g r keys bufs i = .ok bufs' ↔
      StartsWithRows g (r.record i) (slot HEAD_W keys i) ∧
        bufs' = (gramRows g (slot HEAD_W keys i), r.record i) := by
  have hgram : (slot HEAD_W keys i).length = HEAD_W := length_slot hkeys
  have hrec := ViewReader.length_record hi
  have hread : r.readRecord env.os i bufs.2 = (.ok r.slotBytes.toNat, r.record i) := by
    rw [ViewReader.readRecord_of_delivers hos hi (by have := ViewReader.slotBytes_pos hi; omega),
      hview, Nat.min_self, List.take_of_length_le (Nat.le_of_eq hrec),
        List.drop_of_length_le (Nat.le_of_eq hview),
      List.append_nil]
  rw [verifyGram, Except.bind_eq_ok_iff]
  simp only [hread, Outcome.ofExcept_ok, Except.ok_bind, Outcome.mapErr_eq_ok_iff,
    gatherPp_gram_ok_iff hg (hseen i) hgram hsrc]
  constructor
  · rintro ⟨_, ⟨hin, rfl⟩, h⟩
    have hrows := hg.length_gramRows hgram hin
    split_ifs at h with hbad
    · cases h
    · cases h
      obtain ⟨-, heq⟩ := not_or.mp hbad
      refine ⟨⟨hin, ?_⟩, rfl⟩
      rw [← not_not.mp heq]
      exact List.take_prefix _ _
  · rintro ⟨⟨hin, hprefix⟩, rfl⟩
    have hrows := hg.length_gramRows hgram hin
    have hle := hprefix.length_le
    refine ⟨_, ⟨hin, rfl⟩, ?_⟩
    -- the slot has room for the rows, and they are what is compared
    rw [if_neg]
    · rfl
    · rw [not_or, not_not, ← hrows]
      exact ⟨by omega, (List.prefix_iff_eq_take.mp hprefix).symm⟩

/-- Comparisons of records succeed iff each of them starts with the rows of its gram. -/
private theorem verifyGrams_ok_iff (hg : Intact g) (hos : env.os.Delivers)
    (hseen : ∀ i, (env.sched i).panicSeen = true)
    (hkeys : r.count * HEAD_W ≤ keys.length) {is : List ℕ} (his : ∀ i ∈ is, i < r.count)
    {bufs : Bytes × Bytes} (hsrc : bufs.1.length = RECORD_BYTES)
    (hview : bufs.2.length = r.slotBytes.toNat) :
    (∃ bufs', is.foldlM (verifyGram env g r keys) bufs = .ok bufs') ↔
      ∀ i ∈ is, StartsWithRows g (r.record i) (slot HEAD_W keys i) := by
  induction is generalizing bufs with
  | nil => exact iff_of_true ⟨bufs, rfl⟩ (by simp)
  | cons i is ih =>
    have hi : i < r.count := his i (by simp)
    have hcover : (i + 1) * HEAD_W ≤ keys.length := (Nat.mul_le_mul_right _ hi).trans hkeys
    -- a gram that passes leaves the buffers filled with its own rows
    have hstep : ∀ bufs', verifyGram env g r keys bufs i = .ok bufs' ↔
        StartsWithRows g (r.record i) (slot HEAD_W keys i) ∧
          bufs' = (gramRows g (slot HEAD_W keys i), r.record i) :=
      fun _ => verifyGram_ok_iff hg hos hseen hi hcover hsrc hview
    rw [List.forall_mem_cons]
    constructor
    · rintro ⟨bufs', h⟩
      obtain ⟨next, hfirst, hrest⟩ := Except.foldlM_cons_eq_ok h
      obtain ⟨hstarts, rfl⟩ := (hstep next).mp hfirst
      exact ⟨hstarts, (ih (fun j hj => his j (by simp [hj]))
        (hg.length_gramRows (length_slot hcover) hstarts.1) (ViewReader.length_record hi)).mp
          ⟨bufs', hrest⟩⟩
    · rintro ⟨hstarts, hall⟩
      have hrest : ∃ bufs', is.foldlM (verifyGram env g r keys)
          (gramRows g (slot HEAD_W keys i), r.record i) = .ok bufs' :=
        (ih (fun j hj => his j (by simp [hj])) (hg.length_gramRows (length_slot hcover) hstarts.1)
          (ViewReader.length_record hi)).mpr hall
      obtain ⟨bufs', hrest⟩ := hrest
      refine ⟨bufs', ?_⟩
      rw [List.foldlM_cons, (hstep _).mpr ⟨hstarts, rfl⟩]
      exact hrest

/-! ### The verification -/

/-- A verification succeeds iff the view opens and is not empty, the keys cover it, and the records
that are compared start with the rows of their grams. -/
theorem verifyView_ok_iff (hg : Intact g) (hos : env.os.Delivers)
    (hseen : ∀ i, (env.sched i).panicSeen = true) (keys : Option (List ℕ)) :
    verifyView env g files keys subGrams = .ok () ↔
      ∃ r, ViewReader.openFiles files = .ok r ∧ 0 < r.count ∧
        r.count ≤ (keys.getD []).length / HEAD_W ∧
        ∀ i < checkCount subGrams r.count,
          StartsWithRows g (r.record i) (slot HEAD_W (keys.getD []) i) := by
  generalize hk : keys.getD [] = ks
  rw [verifyView, hk]
  cases hopen : ViewReader.openFiles files with
  | error e => exact iff_of_false (by rintro ⟨⟩) (by rintro ⟨r, ⟨⟩, -⟩)
  | ok r =>
    have hcount : checkCount subGrams r.count ≤ r.count := by
      rw [checkCount]
      split_ifs <;> omega
    -- the records that are compared are those below the count
    have hchecks : r.count ≤ ks.length / HEAD_W →
        ((∃ bufs', (List.range (checkCount subGrams r.count)).foldlM (verifyGram env g r ks)
          (List.replicate RECORD_BYTES 0, List.replicate r.slotBytes.toNat 0) = .ok bufs') ↔
        ∀ i < checkCount subGrams r.count, StartsWithRows g (r.record i) (slot HEAD_W ks i)) := by
      intro hcover
      rw [verifyGrams_ok_iff hg hos hseen ((Nat.le_div_iff_mul_le (by decide)).mp hcover)
        (fun i hi => Nat.lt_of_lt_of_le (List.mem_range.mp hi) hcount) (List.length_replicate ..)
        (List.length_replicate ..)]
      simp only [List.mem_range]
    simp only [Outcome.ofExcept_ok, Except.ok_bind]
    by_cases hzero : r.count = 0
    · rw [if_pos hzero]
      exact iff_of_false (by rintro ⟨⟩) (by rintro ⟨_, ⟨⟩, hpos, -⟩; omega)
    by_cases hcover : r.count ≤ ks.length / HEAD_W
    · have hne : ks ≠ [] := by
        rintro rfl
        rw [List.length_nil, Nat.zero_div] at hcover
        omega
      rw [if_neg hzero, if_neg hne, if_neg (Nat.not_lt.mpr hcover), Nat.min_eq_left hcover]
      constructor
      · intro h
        obtain ⟨bufs', hfold, -⟩ := Except.bind_eq_ok_iff.mp h
        exact ⟨r, rfl, Nat.pos_of_ne_zero hzero, hcover, (hchecks hcover).mp ⟨bufs', hfold⟩⟩
      · rintro ⟨_, ⟨⟩, -, -, hall⟩
        obtain ⟨bufs', hfold⟩ := (hchecks hcover).mpr hall
        exact Except.bind_eq_ok_iff.mpr ⟨bufs', hfold, rfl⟩
    · refine iff_of_false (fun h => ?_) (by rintro ⟨_, ⟨⟩, -, hle, -⟩; exact hcover hle)
      by_cases hne : ks = []
      · rw [if_neg hzero, if_pos hne] at h
        cases h
      · rw [if_neg hzero, if_neg hne, if_pos (Nat.lt_of_not_le hcover)] at h
        cases h

/-- The file has the record of a gram, the keys have the gram, and the record starts with its
rows. -/
def Holds (g : BadgeGather) (files : ViewFiles) (keys : List ℕ) (i : ℕ) : Prop :=
  ∃ file, files.view = some file ∧ (i + 1) * (slotOf files).1.toNat ≤ file.length ∧
    (i + 1) * HEAD_W ≤ keys.length ∧
    StartsWithRows g (slot (slotOf files).1.toNat file i) (slot HEAD_W keys i)

/-- A verification of at least as many grams as the manifest has that succeeds is proof: the view
has all these grams, and each record starts with the rows of its keys. -/
def ProvesAll (env : VerifyEnv) (g : BadgeGather) (files : ViewFiles) (keys : Option (List ℕ))
    (subGrams : ℕ) : Prop :=
  (slotOf files).2.toNat ≤ subGrams → verifyView env g files keys subGrams = .ok () →
    ∀ i < (slotOf files).2.toNat, Holds g files (keys.getD []) i

/-- A view that was cut off: its file has fewer records than the manifest, but at least one, and
those that it has are genuine. -/
def CutOff (g : BadgeGather) (files : ViewFiles) (keys : List ℕ) : Prop :=
  ∃ n, 0 < n ∧ n < (slotOf files).2.toNat ∧
    (∃ file, files.view = some file ∧ file.length / (slotOf files).1.toNat = n) ∧
    ∀ i < n, Holds g files keys i

/-- An open view (`h`) has the bytes of its file, the slot width and the count that the files
give. -/
theorem eq_of_openFiles_ok (h : ViewReader.openFiles files = .ok r) :
    files.view = some r.file ∧ r.slotBytes = (slotOf files).1 ∧
      r.count = ViewReader.countOf r.file (slotOf files).1 (slotOf files).2 := by
  cases hview : files.view with
  | none =>
    simp only [ViewReader.openFiles, hview] at h
    cases h
  | some file =>
    rw [ViewReader.openFiles_eq_ok hview] at h
    cases h
    exact ⟨rfl, rfl, rfl⟩

/-- Under a manifest with grams, a view is opened with as many of them as the file has slots. -/
theorem count_eq_min (hopen : ViewReader.openFiles files = .ok r)
    (hgrans : 0 < (slotOf files).2.toNat) :
    r.count = min (r.file.length / (slotOf files).1.toNat) (slotOf files).2.toNat := by
  rw [(eq_of_openFiles_ok hopen).2.2, ViewReader.countOf]
  exact if_pos (UInt64.lt_iff_toNat_lt.mpr (show (0 : UInt64).toNat < _ from hgrans))

/-- A record of an open view that starts with the rows of its gram is one that the files hold. -/
theorem holds_iff (hopen : ViewReader.openFiles files = .ok r)
    (hcover : r.count ≤ keys.length / HEAD_W) {i : ℕ} (hi : i < r.count) :
    Holds g files keys i ↔ StartsWithRows g (r.record i) (slot HEAD_W keys i) := by
  obtain ⟨hview, hslot, -⟩ := eq_of_openFiles_ok hopen
  have hfits := ViewReader.slot_fits hi
  rw [hslot] at hfits
  have hkeys : (i + 1) * HEAD_W ≤ keys.length :=
    (Nat.mul_le_mul_right _ hi).trans ((Nat.le_div_iff_mul_le (by decide)).mp hcover)
  rw [ViewReader.record, hslot]
  constructor
  · rintro ⟨file, hfile, -, -, hstarts⟩
    rw [hview] at hfile
    cases hfile
    exact hstarts
  · exact fun hstarts => ⟨r.file, hview, hfits, hkeys, hstarts⟩

/-- Of a view that was cut off only the records that it has are compared, so it verifies. -/
theorem not_provesAll_of_cutOff (hg : Intact g) (hos : env.os.Delivers)
    (hseen : ∀ i, (env.sched i).panicSeen = true) {keys : Option (List ℕ)}
    (hsub : (slotOf files).2.toNat ≤ subGrams) (hcut : CutOff g files (keys.getD [])) :
    ¬ ProvesAll env g files keys subGrams := by
  intro h
  obtain ⟨n, hpos, hlt, ⟨file, hview, hn⟩, hall⟩ := hcut
  obtain ⟨r, hopen⟩ : ∃ r, ViewReader.openFiles files = .ok r :=
    ⟨_, ViewReader.openFiles_eq_ok hview⟩
  obtain rfl : file = r.file := Option.some.inj (hview.symm.trans (eq_of_openFiles_ok hopen).1)
  have hcount : r.count = n := by
    rw [count_eq_min hopen (by omega), hn, Nat.min_eq_left (Nat.le_of_lt hlt)]
  obtain ⟨-, -, -, hkeys, -⟩ := hall (n - 1) (by omega)
  rw [Nat.sub_add_cancel hpos, ← hcount] at hkeys
  have hcover : r.count ≤ (keys.getD []).length / HEAD_W :=
    (Nat.le_div_iff_mul_le (by decide)).mpr hkeys
  have hcheck : checkCount subGrams r.count = n := by
    rw [checkCount, if_pos (by omega)]
    omega
  -- the view verifies, so it would have a record behind its last one
  have hok : verifyView env g files keys subGrams = .ok () :=
    (verifyView_ok_iff hg hos hseen keys).mpr ⟨r, hopen, by omega, hcover, fun i hi =>
      (holds_iff hopen hcover (by omega)).mp (hall i (by omega))⟩
  obtain ⟨file, hview', hfits, -⟩ := h hsub hok n hlt
  rw [hview] at hview'
  cases hview'
  have hslot : 0 < (slotOf files).1.toNat := by
    refine Nat.pos_of_ne_zero fun h0 => ?_
    rw [h0, Nat.div_zero] at hn
    omega
  have := (Nat.le_div_iff_mul_le hslot).mpr hfits
  omega

/-- Over an intact table (`hg`) whose reads deliver (`hos`), and when the caller sees the panics of
its jobs (`hseen`), a verification of as many grams as the manifest has is proof iff the view is not
one that was cut off behind a genuine record: of such a view, only the records that it has are
compared. -/
theorem provesAll_iff (hg : Intact g) (hos : env.os.Delivers)
    (hseen : ∀ i, (env.sched i).panicSeen = true)
    (files : ViewFiles) (keys : Option (List ℕ)) (subGrams : ℕ) :
    ProvesAll env g files keys subGrams ↔
      ((slotOf files).2.toNat ≤ subGrams → ¬ CutOff g files (keys.getD [])) := by
  constructor
  · exact fun h hsub hcut => not_provesAll_of_cutOff hg hos hseen hsub hcut h
  · intro hcut hsub hok i hi
    obtain ⟨r, hopen, hpos, hcover, hall⟩ := (verifyView_ok_iff hg hos hseen keys).mp hok
    have hview := (eq_of_openFiles_ok hopen).1
    have hcount := count_eq_min hopen (Nat.zero_lt_of_lt hi)
    -- every record of the open view was compared
    have hcheck : checkCount subGrams r.count = r.count := by
      rw [checkCount, if_pos (by omega)]
      omega
    rw [hcheck] at hall
    have hholds : ∀ j < r.count, Holds g files (keys.getD []) j := fun j hj =>
      (holds_iff hopen hcover hj).mpr (hall j hj)
    rcases Nat.lt_or_ge (r.file.length / (slotOf files).1.toNat)
      (slotOf files).2.toNat with hlt | hge
    · exact absurd ⟨r.count, hpos, by omega, ⟨r.file, hview, by omega⟩, hholds⟩ (hcut hsub)
    · exact hholds i (by omega)

/-- Nothing fails, and jobs finish in order. -/
def calmEnv : VerifyEnv where
  os := fullPread
  sched _ := Schedule.inOrder _
  describe _ := ""

theorem intact_sevens : Intact sevens where
  width_eq := rfl
  width_eq_rowBytes := rfl
  badgeRows_pos := by decide
  full := preadvBackend_full fullPread_full
  complete f hf := by
    rw [List.mem_singleton.mp hf]
    exact (List.length_replicate ..).ge

/-- The rows of a gram of sevens. -/
def sevensRows : Bytes := gramRows sevens (List.replicate 16 0)

/-- A view of two grams of sevens that was cut off behind its first record. -/
def halfView : ViewFiles := ⟨some sevensRows, some (keysManifest 2560 "" none 32), none⟩

private theorem cutOff_halfView : CutOff sevens halfView (List.replicate 32 0) := by
  have hin : ∀ k ∈ List.replicate 16 0, sevens.layout.InRange k := (fits_sevens 16).inRange
  have hlen : sevensRows.length = 2560 := intact_sevens.length_gramRows rfl hin
  have hslot : (slotOf halfView).1.toNat = 2560 := rfl
  have hgrans : (slotOf halfView).2.toNat = 2 := rfl
  refine ⟨1, by decide, by rw [hgrans]; decide,
    ⟨sevensRows, rfl, by rw [hlen, hslot]⟩, fun i hi => ?_⟩
  obtain rfl : i = 0 := by omega
  refine ⟨sevensRows, rfl, by rw [hslot, hlen], by decide, ?_⟩
  have hrec : slot (slotOf halfView).1.toNat sevensRows 0 = sevensRows := by
    rw [slot, Nat.zero_mul, List.drop_zero, hslot, ← hlen, List.take_length]
  rw [hrec]
  exact ⟨hin, List.prefix_rfl⟩

theorem provesAll_iff_halfView :
    ProvesAll calmEnv sevens halfView (some (List.replicate 32 0)) 2 ↔
      (2 ≤ 2 → ¬ CutOff sevens halfView (List.replicate 32 0)) :=
  provesAll_iff intact_sevens fullPread_full.delivers (fun _ => rfl) halfView _ 2

/-- It verifies, though its second record is missing. -/
theorem not_provesAll_halfView :
    ¬ ProvesAll calmEnv sevens halfView (some (List.replicate 32 0)) 2 :=
  not_provesAll_of_cutOff intact_sevens fullPread_full.delivers (fun _ => rfl) (Nat.le_refl 2)
    cutOff_halfView

end View

end EngramDB
