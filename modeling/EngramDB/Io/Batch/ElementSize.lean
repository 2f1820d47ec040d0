import EngramDB.Io.Batch.Exact
import EngramDB.Io.Batch.WholeBadges

/-!
# Rows of elements of several bytes

A row has `width` elements, and a gather hands out its first `width` bytes. `gatherNaive` cuts them
out of the badge. `gatherPp` pushes whole rows into the staging buffer of a job and then reads the
buffer in steps of `width` bytes, so for elements of several bytes its steps do not meet the rows.

* `gatherPp_staged`: the slot of the `j`-th key of a job shows part `j % elemBytes` of the row of
  key `j / elemBytes`;
* `gathersReturn_iff`: so both gathers return the first bytes of every row exactly when these parts
  are the same bytes.
-/

namespace EngramDB

open SlotBuffer Chunking Grouping

namespace BadgeGather

variable {g : BadgeGather} {keys : List ℕ} {out : Bytes} {threads : ℕ}

/-- With full reads, a job stages the stored rows of its keys one after another. -/
private theorem jobRows_of_full (hfull : g.backend.Full) (hne : keys ≠ [])
    (hrows : ∀ k ∈ keys, g.HoldsRow k) {job : List Task} (hjob : job ∈ g.jobs keys threads) :
    g.jobRows job = ((jobPairs job).map fun p => g.storedRow p.1).flatten := by
  have hserved : ∀ t ∈ job, g.served t = (sortedPairs t).map fun p => (p.2, g.storedRow p.1) :=
    fun t ht => served_of_full hfull hrows (mem_tasks_of_mem_jobs hne hjob ht)
  rw [jobRows, jobPairs, List.flatMap_def (l := job), List.map_congr_left hserved, List.map_flatMap,
    List.flatMap_def, List.flatMap_def, List.map_flatten, List.map_map]
  congr 2
  refine List.map_congr_left fun t _ => ?_
  simp only [Function.comp_apply, List.map_map]
  rfl

/-- A step of `w` bytes through rows of `e * w` bytes each. -/
private theorem slot_flatten_of_mul {w e : ℕ} (he : 0 < e) {pieces : List Bytes}
    (hw : ∀ p ∈ pieces, p.length = e * w) {j : ℕ} {p : Bytes} (hp : pieces[j / e]? = some p) :
    slot w pieces.flatten j = slot w p (j % e) := by
  rw [← slot_flatten hw hp, slot_slot _ _ (Nat.mod_lt j he), Nat.div_add_mod']

/-- With full reads, the slot of the `j`-th key of a job shows part `j % elemBytes` of the row of
key `j / elemBytes` of the job. -/
theorem gatherPp_staged {shards rowsPerShard width elemBytes : ℕ}
    (hlayout : g.layout = Layout.new shards rowsPerShard width elemBytes) (helem : 1 ≤ elemBytes)
    (hfull : g.backend.Full) (sched : Schedule JobResult) (hne : keys ≠ [])
    (hkeys : ∀ k ∈ keys, g.layout.InRange k ∧ g.HoldsRow k)
    (hout : out.length = keys.length * width) (threads : ℕ) :
    ∃ out', g.gatherPp sched keys out threads = .ok out' ∧ out'.length = keys.length * width ∧
      ∀ job ∈ g.jobs keys threads, ∀ j k i, (jobPairs job)[j]? = some (k, i) →
        ∀ k' i', (jobPairs job)[j / elemBytes]? = some (k', i') →
          slot width out' i = slot width (g.storedRow k') (j % elemBytes) := by
  have hw : g.layout.width = width := by rw [hlayout]; rfl
  have hrb : g.layout.rowBytes = elemBytes * width := by rw [hlayout]; exact Nat.mul_comm _ _
  have hbadge : 0 < g.layout.badgeRows := hlayout ▸ Layout.badgeRows_new_pos _ _ _ _
  obtain ⟨out', hok, hlen, hslots⟩ := gatherPp_eq_ok sched hne (fun k hk => (hkeys k hk).1) hbadge
    (by rw [hw, hrb]; exact Nat.le_mul_of_pos_left _ helem) (by rw [hw, hout]) threads
  refine ⟨out', hok, by rw [hlen, hw], fun job hjob j k i hj k' i' hj' => ?_⟩
  -- the staging area has `elemBytes` slots for each row of the job
  have hslot := hslots job hjob j k i hj
  rw [hw, jobRows_of_full hfull hne (fun k hk => (hkeys k hk).2) hjob] at hslot
  rw [hslot]
  refine slot_flatten_of_mul helem (fun row hrow => ?_) (by rw [List.getElem?_map, hj']; rfl)
  obtain ⟨p, hp, rfl⟩ := List.mem_map.mp hrow
  have hkey := List.mem_of_getElem? (mem_zipIdx_of_mem_jobPairs hne hjob hp)
  rw [length_storedRow (hkeys _ hkey).2, hrb]

/-- Both gathers succeed and hand out the first `width` bytes of every row. -/
def GathersReturn (g : BadgeGather) (sched : Schedule JobResult) (keys : List ℕ) (out : Bytes)
    (threads : ℕ) : Prop :=
  ∃ rows, g.gatherPp sched keys out threads = .ok rows ∧ g.gatherNaive 0 keys out = (rows, .ok ()) ∧
    ∀ i k, keys[i]? = some k → slot g.layout.width rows i = g.rowHead k

/-- Every key of a request is the key of a job. -/
theorem exists_jobPairs (g : BadgeGather) (threads : ℕ) {i k : ℕ} (hk : keys[i]? = some k) :
    ∃ job ∈ g.jobs keys threads, ∃ j : ℕ, (jobPairs job)[j]? = some (k, i) := by
  have hne : keys ≠ [] := fun h => by simp [h] at hk
  have hmem : (k, i) ∈ (g.jobs keys threads).flatMap jobPairs :=
    (jobPairs_perm hne threads).mem_iff.mpr (List.mem_zipIdx_iff_getElem?.mpr hk)
  obtain ⟨job, hjob, hp⟩ := List.mem_flatMap.mp hmem
  exact ⟨job, hjob, List.mem_iff_getElem?.mp hp⟩

/-- On a table of whole badges (`hfiles`) of rows of any element size, read without short reads
(`hfull`), `gatherPp` and `gatherNaive` hand out the first bytes of every row iff, in every job,
part `j % elemBytes` of the row of key `j / elemBytes` is the first bytes of the row of key `j`. -/
theorem gathersReturn_iff {shards rowsPerShard width elemBytes : ℕ}
    (hlayout : g.layout = Layout.new shards rowsPerShard width elemBytes) (helem : 1 ≤ elemBytes)
    (hfull : g.backend.Full) (hfiles : ∀ f ∈ g.files, g.layout.badgeBytes ∣ f.length ∧
      rowsPerShard * (width * elemBytes) ≤ f.length) (hne : keys ≠ [])
    (hkeys : ∀ k ∈ keys, k < shards * rowsPerShard) (hout : out.length = keys.length * width)
    (threads : ℕ) (sched : Schedule JobResult) :
    g.GathersReturn sched keys out threads ↔
      ∀ job ∈ g.jobs keys threads, ∀ j k i, (jobPairs job)[j]? = some (k, i) →
        ∀ k' i', (jobPairs job)[j / elemBytes]? = some (k', i') →
          slot width (g.storedRow k') (j % elemBytes) = (g.storedRow k).take width := by
  have hw : g.layout.width = width := by rw [hlayout]; rfl
  have hrb : g.layout.rowBytes = width * elemBytes := by rw [hlayout]; rfl
  have hrps : g.layout.rowsPerShard = rowsPerShard := by rw [hlayout]; rfl
  have hbadge : 0 < g.layout.badgeRows := hlayout ▸ Layout.badgeRows_new_pos _ _ _ _
  have hwidth : g.layout.width ≤ g.layout.rowBytes := by
    rw [hw, hrb]
    exact Nat.le_mul_of_pos_right _ helem
  have hrange : ∀ k ∈ keys, g.layout.InRange k := fun k hk => by
    rw [hlayout]
    exact hkeys k hk
  have hwhole : ∀ k ∈ keys, g.layout.InRange k ∧ g.WholeBadge k := fun k hk =>
    ⟨hrange k hk, wholeBadge_of_dvd (hrange k hk) (by rwa [hrps, hrb])⟩
  have hhead : ∀ k, (g.storedRow k).take width = g.rowHead k := fun k => by rw [rowHead, hw]
  have hheads : ∀ p ∈ keys.map g.rowHead, p.length = g.layout.width := by
    intro p hp
    obtain ⟨k, hk, rfl⟩ := List.mem_map.mp hp
    exact (hwhole k hk).2.length_rowHead hbadge hwidth
  have hnaive := gatherNaive_eq_ok hfull hbadge hwidth 0 hwhole (by rw [hw, hout])
  -- a slot of the result is cut from the stored row that the staging area holds at that offset
  obtain ⟨out', hok, hlen, hslots⟩ := gatherPp_staged hlayout helem hfull sched hne
    (fun k hk => ⟨hrange k hk, (hwhole k hk).2.holdsRow hbadge⟩) hout threads
  constructor
  -- if the rows are right then what is cut out is the head of the row
  · rintro ⟨rows, hok', -, hrows⟩ job hjob j k i hj k' i' hj'
    obtain rfl : out' = rows := Except.ok.inj (hok.symm.trans hok')
    have hk := mem_zipIdx_of_mem_jobPairs hne hjob (List.mem_of_getElem? hj)
    rw [← hslots job hjob j k i hj k' i' hj', hhead, ← hw]
    exact hrows i k hk
  · intro hparts
    have hrows : ∀ i k, keys[i]? = some k → slot g.layout.width out' i = g.rowHead k := by
      intro i k hk
      -- conversely every key stands in some job
      obtain ⟨job, hjob, j, hj⟩ := exists_jobPairs g threads hk
      have hlt : j / elemBytes < (jobPairs job).length :=
        Nat.lt_of_le_of_lt (Nat.div_le_self _ _) (List.getElem?_eq_some_iff.mp hj).1
      have hj' := List.getElem?_eq_getElem hlt
      rw [hw, hslots job hjob j k i hj _ _ hj', hparts job hjob j k i hj _ _ hj', hhead]
    refine ⟨out', hok, ?_, hrows⟩
    rw [hnaive]
    refine congrArg (·, Except.ok ()) (ext_slots (w := g.layout.width) (n := keys.length) ?_
      (by rw [hlen, hw]) fun i hi => ?_)
    · rw [length_flatten hheads, List.length_map]
    · rw [slot_flatten hheads (by rw [List.getElem?_map, List.getElem?_eq_getElem hi]; rfl),
        hrows i _ (List.getElem?_eq_getElem hi)]

/-- One shard of two rows of one two-byte element, and the rest of their badge. -/
def twoByteRows : BadgeGather where
  layout := Layout.new 1 2 1 2
  files := [[1, 2, 3, 4] ++ List.replicate 4092 0]
  backend := preadvBackend fullPread
  files_length := rfl

theorem twoByteRows_files : ∀ f ∈ twoByteRows.files, twoByteRows.layout.badgeBytes ∣ f.length ∧
    2 * (1 * 2) ≤ f.length := by
  intro f hf
  obtain rfl := List.mem_singleton.mp hf
  rw [List.length_append, List.length_replicate]
  decide

theorem gathersReturn_iff_twoByteRows :
    twoByteRows.GathersReturn (Schedule.inOrder _) [1] [0] 1 ↔
      ∀ job ∈ twoByteRows.jobs [1] 1, ∀ j k i, (jobPairs job)[j]? = some (k, i) →
        ∀ k' i', (jobPairs job)[j / 2]? = some (k', i') →
          slot 1 (twoByteRows.storedRow k') (j % 2) = (twoByteRows.storedRow k).take 1 :=
  gathersReturn_iff rfl (by decide)
    (preadvBackend_full fullPread_full) twoByteRows_files (by decide)
    (by decide) rfl 1 _

/-- In a job of both keys, the slot of the second row gets the second byte of the first. -/
theorem not_gathersReturn_twoByteRows :
    (∀ k ∈ [0, 1], twoByteRows.layout.InRange k) ∧
      ¬ twoByteRows.GathersReturn (Schedule.inOrder _) [0, 1] [0, 0] 1 := by
  refine ⟨by decide, ?_⟩
  rintro ⟨rows, hok', -, hrows⟩
  have hkeys : ∀ k ∈ [0, 1], twoByteRows.layout.InRange k ∧ twoByteRows.HoldsRow k := by
    have hrange : ∀ k ∈ [0, 1], twoByteRows.layout.InRange k := by decide
    exact fun k hk => ⟨hrange k hk,
      (wholeBadge_of_dvd (hrange k hk) twoByteRows_files).holdsRow (by decide)⟩
  have hout : ([0, 0] : Bytes).length = [0, 1].length * 1 := rfl
  obtain ⟨out', hok, -, hslots⟩ := gatherPp_staged (g := twoByteRows) rfl (by decide)
    (preadvBackend_full fullPread_full) (Schedule.inOrder _) (by decide) hkeys hout 1
  obtain rfl : out' = rows := Except.ok.inj (hok.symm.trans hok')
  -- the only job has both keys, in order
  have hslot := hslots [(0, [(0, 0), (1, 1)])] (by decide) 1 1 1 rfl 0 0 rfl
  have hstaged : slot 1 (twoByteRows.storedRow 0) (1 % 2) = [2] := by rfl
  have hright : twoByteRows.rowHead 1 = [3] := by rfl
  exact absurd ((hstaged.symm.trans hslot.symm).trans ((hrows 1 1 rfl).trans hright)) (by decide)

end BadgeGather

end EngramDB
