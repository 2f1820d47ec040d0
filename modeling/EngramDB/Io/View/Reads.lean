import EngramDB.Io.Batch.Structure
import EngramDB.Io.View

/-!
# Reading several records at once

`readRecordsParallel` cuts its indices and its output into pieces that belong together and reads
each piece in a job of its own, or reads everything one after another when there is little to read.

* `readJob_eq_ok`: a job puts the records of its indices into the slots of its part of the output,
  when they fit;
* `readRecordsParallel_eq_ok`: so do the jobs together, and what lies after the last slot stays;
* `readsLikeSingle_iff`: the check of the output length multiplies machine words. The call does what
  single reads do iff that product does not wrap around, or is too large for the output all the
  same, or some index is refused anyway.
-/

namespace EngramDB

open SlotBuffer Chunking

namespace ViewReader

variable {os : Pread} {r : ViewReader} {indices : List ℕ} {out buf : Bytes} {index : ℕ}

/-- The record in a slot: what the file has there. -/
def record (r : ViewReader) (index : ℕ) : Bytes := slot r.slotBytes.toNat r.file index

theorem slot_fits (hi : index < r.count) : (index + 1) * r.slotBytes.toNat ≤ r.file.length :=
  (Nat.mul_le_mul_right _ (Nat.lt_of_lt_of_le hi r.count_le)).trans (Nat.div_mul_le_self _ _)

theorem slotBytes_pos (hi : index < r.count) : 0 < r.slotBytes.toNat := by
  have hle := r.count_le
  rcases Nat.eq_zero_or_pos r.slotBytes.toNat with h | h
  · rw [h, Nat.div_zero] at hle
    omega
  · exact h

theorem length_record (hi : index < r.count) : (r.record index).length = r.slotBytes.toNat :=
  length_slot (slot_fits hi)

/-- When reads deliver, a buffer is filled from a slot as far as it is asked for. -/
theorem readSlot_of_delivers (hos : os.Delivers) (hi : index < r.count) {len : ℕ}
    (hlen : len ≤ r.slotBytes.toNat) :
    r.readSlot os index buf len = (.ok (), (r.record index).take len ++ buf.drop len) := by
  have hfits : index * r.slotBytes.toNat + len ≤ r.file.length := by
    have hslot := slot_fits hi
    rw [Nat.succ_mul] at hslot
    omega
  have hread : platformReadExactAt os (r.slotReq index len) = (len, .ok ()) :=
    platformReadExactAt_of_delivers hos hfits
  simp only [readSlot, hread]
  rw [ReadReq.fill, record, slot, List.take_take, Nat.min_eq_left hlen]
  rfl

/-- A buffer as wide as a slot is filled with its record. -/
theorem readSlot_eq_ok (hos : os.Delivers) (hi : index < r.count)
    (hbuf : buf.length = r.slotBytes.toNat) :
    r.readSlot os index buf buf.length = (.ok (), r.record index) := by
  rw [readSlot_of_delivers hos hi (Nat.le_of_eq hbuf), List.drop_length, List.append_nil, hbuf,
    List.take_of_length_le (Nat.le_of_eq (length_record hi))]

/-- When reads deliver, reading a record into a buffer stores as much of it as the buffer has room
for. -/
theorem readRecord_of_delivers (hos : os.Delivers) (hi : index < r.count) (hbuf : 0 < buf.length) :
    r.readRecord os index buf = (.ok (min r.slotBytes.toNat buf.length),
      (r.record index).take (min r.slotBytes.toNat buf.length) ++
        buf.drop (min r.slotBytes.toNat buf.length)) := by
  have hpos := slotBytes_pos hi
  rw [readRecord, if_neg (by omega)]
  dsimp only
  rw [if_neg (by omega), readSlot_of_delivers hos hi (Nat.min_le_left _ _)]
  rfl

/-- Reading a whole record is filling the buffer from its slot. -/
theorem readRecord_eq_readSlot (os : Pread) (hi : index < r.count)
    (hbuf : buf.length = r.slotBytes.toNat) :
    r.readRecord os index buf = ((r.readSlot os index buf buf.length).1.map fun _ => buf.length,
      (r.readSlot os index buf buf.length).2) := by
  have hpos := slotBytes_pos hi
  rw [readRecord, if_neg (by omega)]
  simp only [← hbuf, Nat.min_self]
  rw [if_neg (by omega)]

/-! ### The slots of the output -/

/-- A slot that is cut out of the output is as wide as a record: where the product of its end wraps
around and that of its start does not, the end lies before the start. -/
theorem length_of_sliceSlot {j lo : ℕ} (h : r.sliceSlot out j = some (lo, buf)) :
    buf.length = r.slotBytes.toNat := by
  have hw := r.slotBytes.toNat_lt
  have hmul : (j + 1) * r.slotBytes.toNat = j * r.slotBytes.toNat + r.slotBytes.toNat :=
    Nat.succ_mul _ _
  simp only [sliceSlot, slotStart, hmul, Option.ite_none_right_eq_some, Option.some.injEq,
    Prod.mk.injEq] at h
  obtain ⟨⟨hle, hend⟩, rfl, rfl⟩ := h
  rw [List.length_take, List.length_drop]
  omega

/-- A slot inside an output that fits into memory is cut out as it is. -/
private theorem sliceSlot_eq_some {j : ℕ} (hfit : (j + 1) * r.slotBytes.toNat ≤ out.length)
    (hout : out.length < 2 ^ 64) :
    r.sliceSlot out j = some (j * r.slotBytes.toNat, slot r.slotBytes.toNat out j) := by
  have hmul : (j + 1) * r.slotBytes.toNat = j * r.slotBytes.toNat + r.slotBytes.toNat :=
    Nat.succ_mul _ _
  have hlo : r.slotStart j = j * r.slotBytes.toNat := Nat.mod_eq_of_lt (by omega)
  have hhi : r.slotStart (j + 1) = (j + 1) * r.slotBytes.toNat := Nat.mod_eq_of_lt (by omega)
  simp only [sliceSlot, hlo, hhi]
  rw [if_pos ⟨by omega, hfit⟩, hmul, Nat.add_sub_cancel_left]
  rfl

/-! ### One job -/

/-- A job whose part of the output has a slot for each of its indices puts their records there, from
slot `j` on. -/
theorem readJob_eq_ok (hos : os.Delivers) (hin : ∀ i ∈ indices, i < r.count) (j : ℕ)
    (hfit : (j + indices.length) * r.slotBytes.toNat ≤ out.length) (hout : out.length < 2 ^ 64) :
    r.readJob os j indices out = (.ok none, out.take (j * r.slotBytes.toNat) ++
      (indices.map r.record).flatten ++ out.drop ((j + indices.length) * r.slotBytes.toNat)) := by
  induction indices generalizing j out with
  | nil =>
    rw [readJob, List.map_nil, List.flatten_nil, List.append_nil, List.length_nil, Nat.add_zero,
      List.take_append_drop]
  | cons index indices ih =>
    have hi : index < r.count := hin index (by simp)
    have hrec := length_record hi
    rw [List.length_cons] at hfit
    have hslot : (j + 1) * r.slotBytes.toNat ≤ out.length :=
      (Nat.mul_le_mul_right _ (by omega)).trans hfit
    have hmul : (j + 1) * r.slotBytes.toNat = j * r.slotBytes.toNat + r.slotBytes.toNat :=
      Nat.succ_mul _ _
    have hstore : (store out (j * r.slotBytes.toNat) (r.record index)).length = out.length :=
      length_store (by omega)
    -- the slots before this one stay, and the later ones are still to come
    have hbefore : (store out (j * r.slotBytes.toNat) (r.record index)).take
        ((j + 1) * r.slotBytes.toNat) = out.take (j * r.slotBytes.toNat) ++ r.record index := by
      rw [store, List.take_left']
      rw [List.length_append, List.length_take, hrec, hmul]
      omega
    have hafter : (store out (j * r.slotBytes.toNat) (r.record index)).drop
        ((j + 1 + indices.length) * r.slotBytes.toNat) =
          out.drop ((j + 1 + indices.length) * r.slotBytes.toNat) := by
      have hge : (j + 1) * r.slotBytes.toNat ≤ (j + 1 + indices.length) * r.slotBytes.toNat :=
        Nat.mul_le_mul_right _ (by omega)
      rw [store, hrec, List.drop_append, List.drop_of_length_le, List.nil_append, List.drop_drop]
      · congr 1
        rw [List.length_append, List.length_take, hrec]
        omega
      · rw [List.length_append, List.length_take, hrec]
        omega
    rw [readJob, sliceSlot_eq_some hslot hout]
    simp only [readSlot_eq_ok hos hi (length_slot hslot)]
    rw [ih (fun i h => hin i (by simp [h])) (j + 1) (by rw [hstore]; convert hfit using 2; omega)
      (by rwa [hstore]), hbefore, hafter, List.map_cons, List.flatten_cons, List.length_cons]
    congr 2
    · simp only [List.append_assoc]
    · congr 2
      omega

/-- A job whose indices are all in range pushes no error: it reads them, or an index of its output
panics. -/
theorem readJob_pushes_none (hos : os.Delivers) (hin : ∀ i ∈ indices, i < r.count) (j : ℕ)
    (out : Bytes) : (r.readJob os j indices out).1 = .ok none ∨
      (r.readJob os j indices out).1 = .error .panic := by
  induction indices generalizing j out with
  | nil => exact .inl rfl
  | cons index indices ih =>
    rw [readJob]
    cases hslice : r.sliceSlot out j with
    | none => exact .inr rfl
    | some p =>
      obtain ⟨lo, buf⟩ := p
      simp only [readSlot_eq_ok hos (hin index (by simp)) (length_of_sliceSlot hslice)]
      exact ih (fun i h => hin i (by simp [h])) _ _

/-- The error that a job pushes, raised. -/
def raise : Outcome IoError (Option IoError) → Outcome IoError Unit
  | .ok none => .ok ()
  | .ok (some e) => .error (.error e)
  | .error fault => .error fault

/-- Reading records one after another is running a job and raising its error. -/
theorem readSerial_eq_readJob (os : Pread) (hin : ∀ i ∈ indices, i < r.count)
    (j : ℕ) (out : Bytes) :
    r.readSerial os j indices out =
      (raise (r.readJob os j indices out).1, (r.readJob os j indices out).2) := by
  induction indices generalizing j out with
  | nil => rfl
  | cons index indices ih =>
    rw [readSerial, readJob]
    cases hslice : r.sliceSlot out j with
    | none => rfl
    | some p =>
      obtain ⟨lo, buf⟩ := p
      have hread := readRecord_eq_readSlot os (hin index (by simp)) (length_of_sliceSlot hslice)
      dsimp only
      rw [hread]
      rcases r.readSlot os index buf buf.length with ⟨e | u, buf'⟩
      · rfl
      · exact ih (fun i h => hin i (by simp [h])) _ _

/-- Raising what a job pushes whose indices are all in range raises nothing. -/
private theorem readSerial_infallible (hos : os.Delivers) (hin : ∀ i ∈ indices, i < r.count) (j : ℕ)
    (out : Bytes) : (r.readSerial os j indices out).1.Infallible := by
  rw [readSerial_eq_readJob os hin]
  rcases readJob_pushes_none hos hin j out with h | h
  · exact .inl ⟨(), by rw [h]; rfl⟩
  · exact .inr (by rw [h]; rfl)

/-! ### All jobs -/

/-- The jobs of a read put the records of their indices to the start of the output, when it has room
for them. -/
private theorem readChunks_eq_ok (hos : os.Delivers) (sched : Schedule (Option IoError)) {chunk : ℕ}
    (hchunk : 0 < chunk) (hle : chunk ≤ indices.length) (hin : ∀ i ∈ indices, i < r.count)
    (hfit : indices.length * r.slotBytes.toNat ≤ out.length) (hout : out.length < 2 ^ 64) :
    r.readChunks os sched chunk indices out = (.ok (), (indices.map r.record).flatten ++
      out.drop (indices.length * r.slotBytes.toNat)) := by
  have hw : 0 < r.slotBytes.toNat := by
    obtain ⟨i, hi⟩ := List.exists_mem_of_length_pos (Nat.lt_of_lt_of_le hchunk hle)
    exact slotBytes_pos (hin i hi)
  have hbytes : chunk * r.slotBytes.toNat % 2 ^ 64 = chunk * r.slotBytes.toNat :=
    Nat.mod_eq_of_lt (Nat.lt_of_le_of_lt ((Nat.mul_le_mul_right _ hle).trans hfit) hout)
  obtain ⟨hfits, hall⟩ :=
    flatten_map_zip_chunks hchunk hw (fun c => (c.map r.record).flatten) indices
    out hfit
  -- every job has the room it needs
  have hjob : ∀ p ∈ (chunks chunk indices).zip (chunks (chunk * r.slotBytes.toNat) out),
      r.readJob os 0 p.1 p.2 =
        (.ok none, (p.1.map r.record).flatten ++ p.2.drop (p.1.length * r.slotBytes.toNat)) := by
    intro p hp
    obtain ⟨hp1, hp2⟩ := List.of_mem_zip hp
    obtain ⟨k, -, hk, -⟩ := mem_chunks hp2
    have hlen : p.2.length ≤ out.length := by
      rw [hk, List.length_take, List.length_drop]
      omega
    rw [readJob_eq_ok hos (fun i hi => hin i (mem_of_mem_chunks hchunk hp1 hi)) 0
      (by rw [Nat.zero_add]; exact hfits p hp) (Nat.lt_of_le_of_lt hlen hout), Nat.zero_mul,
      List.take_zero, List.nil_append, Nat.zero_add]
  have hflat : ((chunks chunk indices).map fun c => (c.map r.record).flatten).flatten =
      (indices.map r.record).flatten := by
    conv_rhs => rw [← flatten_chunks hchunk indices]
    rw [List.map_flatten, List.flatten_flatten, List.map_map]
    rfl
  have hran : ∀ p ∈ (chunks chunk indices).zip (chunks (chunk * r.slotBytes.toNat) out),
      (r.readJob os 0 p.1 p.2).1 = .ok none := fun p hp => by rw [hjob p hp]
  simp only [readChunks, hbytes, Nat.ne_of_gt (Nat.mul_pos hchunk hw), if_false, List.map_map]
  rw [show (Prod.fst ∘ fun p : List ℕ × Bytes => r.readJob os 0 p.1 p.2) =
    fun p => (r.readJob os 0 p.1 p.2).1 from rfl, BadgeGather.scopeRun_map_ok sched hran]
  have hnone : (sched.finish (((chunks chunk indices).zip
      (chunks (chunk * r.slotBytes.toNat) out)).map fun _ => none)).filterMap id = [] := by
    rw [List.filterMap_eq_nil_iff]
    intro a ha
    obtain ⟨p, -, rfl⟩ := List.mem_map.mp ((sched.finish_perm _).mem_iff.mp ha)
    rfl
  simp only [hnone]
  rw [← hflat, ← hall, List.length_map]
  congr 3
  exact List.map_congr_left fun p hp => by rw [Function.comp_apply, hjob p hp]

/-- The jobs of a read whose indices are all in range raise no error. -/
private theorem readChunks_infallible (hos : os.Delivers) (sched : Schedule (Option IoError))
    {chunk : ℕ} (hchunk : 0 < chunk) (hin : ∀ i ∈ indices, i < r.count) (out : Bytes) :
    (r.readChunks os sched chunk indices out).1.Infallible := by
  simp only [readChunks]
  split_ifs
  · exact .inr rfl
  · split
    next h =>
      simp only [scopeRun] at h
      split_ifs at h
      cases h
      exact .inr rfl
    next pushed h =>
      simp only [scopeRun] at h
      split_ifs at h
      -- a record in range is read without an error, so no thread pushes one
      have hnone : pushed.filterMap id = [] := by
        rw [List.filterMap_eq_nil_iff]
        intro a ha
        cases h
        obtain ⟨x, hx, hxa⟩ := List.mem_filterMap.mp ((sched.finish_perm _).mem_iff.mp ha)
        rw [List.map_map] at hx
        obtain ⟨p, hp, rfl⟩ := List.mem_map.mp hx
        obtain ⟨hp1, -⟩ := List.of_mem_zip hp
        rcases readJob_pushes_none hos (fun i hi => hin i (mem_of_mem_chunks hchunk hp1 hi)) 0 p.2
          with hjob | hjob
        · rw [Function.comp_apply, hjob] at hxa
          cases hxa
          rfl
        · rw [Function.comp_apply, hjob] at hxa
          cases hxa
      exact .inl ⟨(), by simp only [hnone]⟩

/-! ### The call -/

theorem find?_refused_eq_none (hin : ∀ i ∈ indices, i < r.count) :
    (indices.find? fun i => r.count ≤ i) = none := by
  rw [List.find?_eq_none]
  intro i hi
  have hlt := hin i hi
  simp only [decide_eq_true_eq]
  omega

/-- The records of indices in range come to the start of an output that has room for them. -/
theorem readRecordsParallel_eq_ok (hos : os.Delivers) (sched : Schedule (Option IoError))
    (hin : ∀ i ∈ indices, i < r.count) (hfit : indices.length * r.slotBytes.toNat ≤ out.length)
    (hout : out.length < 2 ^ 64) (threads : ℕ) :
    r.readRecordsParallel os sched indices out threads = (.ok (), (indices.map r.record).flatten ++
      out.drop (indices.length * r.slotBytes.toNat)) := by
  have hstart : r.slotStart indices.length = indices.length * r.slotBytes.toNat :=
    Nat.mod_eq_of_lt (Nat.lt_of_le_of_lt hfit hout)
  rw [readRecordsParallel, hstart, if_neg (by omega), find?_refused_eq_none hin]
  dsimp only
  split_ifs with hserial
  · -- little to read: one after another
    rw [readSerial_eq_readJob os hin,
      readJob_eq_ok hos hin 0 (by rwa [Nat.zero_add]) hout, Nat.zero_mul,
      List.take_zero, List.nil_append, Nat.zero_add]
    rfl
  · have hnt : 0 < min (max threads 1) (max indices.length 1) := by omega
    refine readChunks_eq_ok hos sched (Nat.div_pos (by omega) hnt) ?_ hin hfit hout
    -- a job has no more indices than there are
    rw [Nat.div_le_iff_le_mul_add_pred hnt]
    have hle : indices.length ≤ min (max threads 1) (max indices.length 1) * indices.length :=
      Nat.le_mul_of_pos_left _ hnt
    omega

/-- A read of indices in range raises no error once the check of the output length is passed. -/
private theorem readRecordsParallel_infallible (hos : os.Delivers)
    (sched : Schedule (Option IoError))
    (hin : ∀ i ∈ indices, i < r.count) (hcheck : r.slotStart indices.length ≤ out.length)
    (threads : ℕ) : (r.readRecordsParallel os sched indices out threads).1.Infallible := by
  rw [readRecordsParallel, if_neg (by omega), find?_refused_eq_none hin]
  dsimp only
  split_ifs with hserial
  · exact readSerial_infallible hos hin 0 out
  · have hnt : 0 < min (max threads 1) (max indices.length 1) := by omega
    exact readChunks_infallible hos sched (Nat.div_pos (by omega) hnt) hin out

/-- The call does what single reads do: it refuses an output that is too short and an index that is
out of range and leaves the output alone, and otherwise puts into every slot what a single read of
its index returns, and changes nothing after the last slot. -/
structure ReadsLikeSingle (os : Pread) (r : ViewReader) (sched : Schedule (Option IoError))
    (indices : List ℕ) (out : Bytes) (threads : ℕ) : Prop where
  /-- What does not fit or is not there is refused. -/
  refuses : out.length < indices.length * r.slotBytes.toNat ∨ (∃ i ∈ indices, r.count ≤ i) →
    ∃ e, r.readRecordsParallel os sched indices out threads = (.error (.error e), out)
  /-- What fits and is there is read. -/
  reads : indices.length * r.slotBytes.toNat ≤ out.length → (∀ i ∈ indices, i < r.count) →
    ∃ out', r.readRecordsParallel os sched indices out threads = (.ok (), out') ∧
      out'.length = out.length ∧
      (∀ j i, indices[j]? = some i → ∀ buf, buf.length = r.slotBytes.toNat →
        r.readRecord os i buf = (.ok r.slotBytes.toNat, slot r.slotBytes.toNat out' j)) ∧
      out'.drop (indices.length * r.slotBytes.toNat) = out.drop (indices.length * r.slotBytes.toNat)

/-- Where the product of the number of indices and the slot width passes the check only because it
wraps around, an output that is too short is not refused. -/
theorem not_readsLikeSingle_of_wraps (hos : os.Delivers) (sched : Schedule (Option IoError))
    (hin : ∀ i ∈ indices, i < r.count) (hcheck : r.slotStart indices.length ≤ out.length)
    (hshort : out.length < indices.length * r.slotBytes.toNat) (threads : ℕ) :
    ¬ r.ReadsLikeSingle os sched indices out threads := by
  intro hlike
  obtain ⟨e, hrefused⟩ := hlike.refuses (.inl hshort)
  have hnone := readRecordsParallel_infallible hos sched hin hcheck threads
  rw [hrefused] at hnone
  obtain ⟨u, h⟩ | h := hnone <;> cases h

/-- When reads deliver (`hos`) and the output is a buffer of the machine (`hout`), reading several
records does what single reads do iff the product of the number of indices and the slot width fits
into a machine word, or is too large for the output even after it has wrapped around, or some index
is out of range. -/
theorem readsLikeSingle_iff (hos : os.Delivers) (r : ViewReader) (sched : Schedule (Option IoError))
    (indices : List ℕ) (hout : out.length < 2 ^ 64) (threads : ℕ) :
    r.ReadsLikeSingle os sched indices out threads ↔
      indices.length * r.slotBytes.toNat < 2 ^ 64 ∨
        out.length < indices.length * r.slotBytes.toNat % 2 ^ 64 ∨ ∃ i ∈ indices, r.count ≤ i := by
  constructor
  · intro hlike
    by_contra! hnot
    obtain ⟨hwraps, hcheck, hin⟩ := hnot
    exact not_readsLikeSingle_of_wraps hos sched hin hcheck (by omega) threads hlike
  · intro hcond
    constructor
    -- the check on the buffer wraps, and is as strict as it should be when the condition holds
    · intro hbad
      by_cases hcheck : out.length < r.slotStart indices.length
      · exact ⟨_, by rw [readRecordsParallel, if_pos hcheck]⟩
      · have hbad' : ∃ i ∈ indices, r.count ≤ i := by
          rcases hbad with hshort | hbad
          · rcases hcond with hfits | hwrapped | hcond
            · exact absurd (by rwa [slotStart, Nat.mod_eq_of_lt hfits]) hcheck
            · exact absurd hwrapped hcheck
            · exact hcond
          · exact hbad
        cases hfind : indices.find? fun i => r.count ≤ i with
        | none =>
          obtain ⟨i, hi, hge⟩ := hbad'
          exact absurd (decide_eq_true hge) (List.find?_eq_none.mp hfind i hi)
        | some bad => exact ⟨_, by rw [readRecordsParallel, if_neg hcheck, hfind]⟩
    · intro hfit hin
      have hwide : ∀ p ∈ indices.map r.record, p.length = r.slotBytes.toNat := by
        intro p hp
        obtain ⟨i, hi, rfl⟩ := List.mem_map.mp hp
        exact length_record (hin i hi)
      have hlen := length_flatten hwide
      rw [List.length_map] at hlen
      refine ⟨_, readRecordsParallel_eq_ok hos sched hin hfit hout threads, ?_, ?_, ?_⟩
      · rw [List.length_append, List.length_drop, hlen]
        omega
      · intro j i hj buf hbuf
        have hi := hin i (List.mem_of_getElem? hj)
        rw [readRecord_eq_readSlot os hi hbuf, readSlot_eq_ok hos hi hbuf]
        refine Prod.ext (congrArg Except.ok hbuf) ?_
        -- the record lies in its slot, and the slots fill the front of the buffer
        have hslot : (j + 1) * r.slotBytes.toNat ≤ (indices.map r.record).flatten.length := by
          rw [hlen]
          exact Nat.mul_le_mul_right _ (List.getElem?_eq_some_iff.mp hj).1
        have hmul : (j + 1) * r.slotBytes.toNat = j * r.slotBytes.toNat + r.slotBytes.toNat :=
          Nat.succ_mul _ _
        have hself : slot r.slotBytes.toNat (indices.map r.record).flatten j = r.record i :=
          slot_flatten hwide (by rw [List.getElem?_map, hj]; rfl)
        rw [← hself, slot, slot, List.drop_append_of_le_length (by omega),
          List.take_append_of_le_length]
        rw [List.length_drop]
        omega
      · rw [← hlen, List.drop_left]

/-- Two records of one byte each. -/
def twoSlots : ViewReader where
  file := [7, 8]
  slotBytes := 1
  count := 2
  count_le := by decide

theorem readsLikeSingle_twoSlots :
    twoSlots.ReadsLikeSingle fullPread (Schedule.inOrder _) [1, 0, 1, 1] [0, 0, 0, 0, 9] 2 :=
  (readsLikeSingle_iff fullPread_full.delivers twoSlots _ [1, 0, 1, 1] (by decide) 2).mpr
    (.inl (by decide))

/-- A view of one slot of a tebibyte, if the file is that long. -/
def wideSlotFiles (file : Bytes) : ViewFiles where
  view := some file
  manifest := some (.object [("slot_bytes", .posInt (1099511627776)), ("grans", .posInt 1)])
  keys := none

/-- The room for the record read 2²⁴ times is the empty output: the call returns without an
error. -/
theorem not_readsLikeSingle_wideSlot :
    ∃ r, openFiles (wideSlotFiles (List.replicate (1099511627776) 0)) = .ok r ∧
      ¬ r.ReadsLikeSingle fullPread (Schedule.inOrder _) (List.replicate (2 ^ 24) 0) [] 4 := by
  have hlen : (List.replicate (1099511627776) (0 : UInt8)).length = 1099511627776 :=
    List.length_replicate
  -- nothing but the length of the file matters, and it is too long to compute with
  generalize List.replicate (1099511627776) (0 : UInt8) = file at hlen
  refine ⟨⟨file, 1099511627776, countOf file (1099511627776) 1, countOf_le _ _ _⟩, rfl, ?_⟩
  have hcount : 0 < countOf file (1099511627776) 1 := by
    rw [countOf, hlen]
    decide
  refine not_readsLikeSingle_of_wraps fullPread_full.delivers _ (fun i hi => ?_) ?_ ?_ 4
  · rwa [List.eq_of_mem_replicate hi]
  · rw [slotStart, List.length_replicate]
    show 2 ^ 24 * (1099511627776 : UInt64).toNat % 2 ^ 64 ≤ 0
    decide
  · rw [List.length_replicate]
    show 0 < 2 ^ 24 * (1099511627776 : UInt64).toNat
    decide

end ViewReader

end EngramDB
