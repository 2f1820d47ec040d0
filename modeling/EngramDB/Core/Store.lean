import EngramDB.Io.Batch.WholeBadges

/-!
# The minimal gather of the core crate

`ShardedStore.gather` serves the keys in order out of one badge buffer. What the buffer holds is
kept in one word, `shard << 32 | badge`, but a key is compared with it by halves the wrong way
round: its shard with the whole word, its badge with the upper half. A badge may so be taken for the
one in the buffer.

* `heldAfter` follows which badge is in the buffer after some keys;
* `gatherFrom_eq_ok`: slot `i` of the output is cut out of the badge that is in the buffer then;
* `gather_iff`: so the rows are those of the files exactly when every key that the word is taken to
  name finds the bytes of its row in the buffer.
-/

namespace EngramDB

open SlotBuffer

/-- An open table of the core crate. -/
structure ShardedStore where
  /-- Layout of the table. -/
  layout : Layout
  /-- Contents of the shard files. -/
  files : List Bytes
  /-- The system's positional read. -/
  os : Pread
  /-- One file was opened for each shard. -/
  files_length : files.length = layout.shards

/-- The word for a badge, `shard << 32 | badge`. -/
def packBadge (b : Badge) : ℕ := (b.1 <<< 32) % 2 ^ 64 ||| b.2

/-- The comparison of a badge with the word:
`(shard, badge) == (current_badge, current_badge >> 32)`. -/
def IsCurrent (current : ℕ) (b : Badge) : Prop := b = (current, current >>> 32)

instance (current : ℕ) (b : Badge) : Decidable (IsCurrent current b) :=
  inferInstanceAs (Decidable (b = _))

namespace ShardedStore

variable (s : ShardedStore)

/-- The table as the table of a `BadgeGather` over the standard library: `gather` reads a badge and
copies a row as `gather_naive` does. -/
def table : BadgeGather where
  layout := s.layout
  files := s.files
  backend := preadvBackend s.os
  files_length := s.files_length

/-- Serve keys one after another, from position `i` on, with the word `current` for the buffer. -/
def gatherFrom (current : ℕ) (buf : Bytes) : ℕ → Bytes → List ℕ → Outcome IoError Bytes
  | _, out, [] => pure out
  | i, out, k :: ks => do
    let (shard, badge, inBadge) ← s.layout.locate k
    if IsCurrent current (shard, badge) then do
      let out ← s.table.copyRow out i buf inBadge
      gatherFrom current buf (i + 1) out ks
    else do
      let buf ← s.table.readBadge (0, i) (shard, badge) buf
      let out ← s.table.copyRow out i buf inBadge
      gatherFrom (packBadge (shard, badge)) buf (i + 1) out ks

/-- Gather the rows of `keys` into `out`. -/
def gather (keys : List ℕ) (out : Bytes) : Outcome IoError Bytes :=
  s.gatherFrom (2 ^ 64 - 1) (List.replicate s.layout.badgeBytes 0) 0 out keys

/-- The word for what the buffer holds: all ones before the first read. -/
def wordOf (held : Option Badge) : ℕ := (held.map packBadge).getD (2 ^ 64 - 1)

/-- The buffer that holds a badge, or zeros before the first read. -/
def bufferOf (held : Option Badge) : Bytes :=
  (held.map s.table.badgeAt).getD (List.replicate s.layout.badgeBytes 0)

/-- The badge in the buffer when a key is served. -/
def heldNext (held : Option Badge) (k : ℕ) : Option Badge :=
  if IsCurrent (wordOf held) (s.table.badgeOf k) then held else some (s.table.badgeOf k)

/-- The badge in the buffer after some keys. -/
def heldAfter (keys : List ℕ) : Option Badge := keys.foldl s.heldNext none

/-- The row of a key that is cut out of a buffer. -/
def rowIn (buf : Bytes) (k : ℕ) : Bytes :=
  slot s.layout.rowBytes buf (k % s.layout.rowsPerShard % s.layout.badgeRows)

section Gather

variable {s} {held : Option Badge} {out : Bytes} {keys : List ℕ} {k : ℕ}

theorem length_bufferOf (hheld : ∀ b, held = some b → s.table.HoldsBadge b) :
    (s.bufferOf held).length = s.layout.badgeBytes := by
  cases held with
  | none => exact List.length_replicate
  | some b => exact BadgeGather.length_badgeAt (hheld b rfl)

/-- A badge that the file has in full is read. -/
private theorem readBadge_of_delivers (hos : s.os.Delivers) {b : Badge} (hb : b.1 < s.files.length)
    (hwhole : s.table.HoldsBadge b) {buf : Bytes} (hbuf : buf.length = s.layout.badgeBytes)
    (call : ℕ × ℕ) : s.table.readBadge call b buf = .ok (s.table.badgeAt b) := by
  have hread : s.table.backend.readExactAt (s.table.badgeReq call (s.table.files.getD b.1 []) b.2) =
      (s.layout.badgeBytes, .ok ()) := by
    refine platformReadExactAt_of_delivers hos ?_
    rw [BadgeGather.HoldsBadge, Nat.succ_mul] at hwhole
    exact hwhole
  rw [BadgeGather.readBadge, BadgeGather.index_files hb, Except.ok_bind]
  simp only [hread, Outcome.ofExcept_ok]
  exact congrArg Except.ok (BadgeGather.fill_badgeReq hbuf call b)

/-- The row of the key is copied out of a buffer of the size of a badge. -/
private theorem copyRow_of_length (hbadge : 0 < s.layout.badgeRows)
    (hwidth : s.layout.width = s.layout.rowBytes) {buf : Bytes}
    (hbuf : buf.length = s.layout.badgeBytes) {i : ℕ}
    (hout : (i + 1) * s.layout.width ≤ out.length) :
    s.table.copyRow out i buf (k % s.layout.rowsPerShard % s.layout.badgeRows) =
      .ok (store out (i * s.layout.width) (s.rowIn buf k)) := by
  have hin := Nat.mod_lt (k % s.layout.rowsPerShard) hbadge
  have hle :
      (k % s.layout.rowsPerShard % s.layout.badgeRows + 1) * s.layout.rowBytes ≤ buf.length := by
    rw [hbuf, Layout.badgeBytes]
    exact Nat.mul_le_mul_right _ hin
  have hwide := length_slot hle
  rw [Nat.succ_mul] at hle hout
  have hslice : (sliceRange buf (k % s.layout.rowsPerShard % s.layout.badgeRows * s.layout.rowBytes)
      (k % s.layout.rowsPerShard % s.layout.badgeRows * s.layout.rowBytes + s.layout.width) :
      Outcome IoError Bytes) = .ok (s.rowIn buf k) := by
    rw [sliceRange, if_pos (by omega), Nat.add_sub_cancel_left, hwidth]
    rfl
  rw [BadgeGather.copyRow]
  simp only [table]
  rw [hslice, Except.ok_bind, copyFromSlice, Nat.succ_mul, if_pos]
  refine ⟨by omega, hout, ?_⟩
  rw [Nat.add_sub_cancel_left, hwidth]
  exact hwide

/-- Serving keys succeeds, and cuts every row out of the badge that is in the buffer then. -/
theorem gatherFrom_eq_ok (hos : s.os.Delivers) (hbadge : 0 < s.layout.badgeRows)
    (hwidth : s.layout.width = s.layout.rowBytes)
    (hheld : ∀ b, held = some b → s.table.HoldsBadge b)
    (hkeys : ∀ k ∈ keys, s.layout.InRange k ∧ s.table.WholeBadge k) {i : ℕ}
    (hout : (i + keys.length) * s.layout.width ≤ out.length) :
    ∃ out', s.gatherFrom (wordOf held) (s.bufferOf held) i out keys = .ok out' ∧
      (∀ j < i, slot s.layout.width out' j = slot s.layout.width out j) ∧
      ∀ j k, keys[j]? = some k → slot s.layout.width out' (i + j) =
        s.rowIn (s.bufferOf ((keys.take (j + 1)).foldl s.heldNext held)) k := by
  induction keys generalizing held out i with
  | nil => exact ⟨out, rfl, fun _ _ => rfl, fun j k hk => by cases hk⟩
  | cons k ks ih =>
    obtain ⟨hk, hwhole⟩ := hkeys k (by simp)
    rw [List.length_cons, ← Nat.add_assoc, Nat.add_right_comm] at hout
    have hout' : (i + 1) * s.layout.width ≤ out.length :=
      Nat.le_trans (Nat.mul_le_mul_right _ (by omega)) hout
    -- the badge that is in the buffer when `k` is served
    have hnext : ∀ b, s.heldNext held k = some b → s.table.HoldsBadge b := by
      intro b hb
      unfold heldNext at hb
      split_ifs at hb
      · exact hheld b hb
      · exact Option.some.inj hb ▸ hwhole
    have hbuf := length_bufferOf hnext
    have hcopy := copyRow_of_length (k := k) hbadge hwidth hbuf hout'
    have hrow : (s.rowIn (s.bufferOf (s.heldNext held k)) k).length = s.layout.width := by
      rw [hwidth]
      refine length_slot ?_
      rw [hbuf]
      exact Nat.mul_le_mul_right _ (Nat.mod_lt _ hbadge)
    have hfits : i * s.layout.width +
        (s.rowIn (s.bufferOf (s.heldNext held k)) k).length ≤ out.length := by
      rwa [hrow, ← Nat.succ_mul]
    have hroom : (i + 1 + ks.length) * s.layout.width ≤ (store out (i * s.layout.width)
        (s.rowIn (s.bufferOf (s.heldNext held k)) k)).length := by
      rwa [length_store hfits]
    obtain ⟨out', hrest, hbefore, hafter⟩ := ih hnext (fun k hk => hkeys k (by simp [hk])) hroom
    refine ⟨out', ?_, fun j hj => ?_, fun j k' hk' => ?_⟩
    · have hlocate : (s.layout.locate k : Outcome IoError _) = .ok _ :=
        @BadgeGather.locate_eq_badgeOf s.table _ _ hk hbadge
      rw [gatherFrom, hlocate, Except.ok_bind]
      show (if IsCurrent (wordOf held) (s.table.badgeOf k) then _ else _) = _
      unfold heldNext at hcopy hrest
      split_ifs at hcopy hrest ⊢ with hcurrent
      · refine Except.bind_eq_ok_iff.mpr ⟨_, hcopy, hrest⟩
      · refine Except.bind_eq_ok_iff.mpr
          ⟨_, readBadge_of_delivers hos (BadgeGather.badgeOf_lt hk) hwhole
          (length_bufferOf hheld) _, Except.bind_eq_ok_iff.mpr ⟨_, hcopy, hrest⟩⟩
    · rw [hbefore j (by omega), slot_store_of_ne hrow hout' (by omega)]
    · cases j with
      | zero =>
        obtain rfl := Option.some.inj hk'
        rw [Nat.add_zero, hbefore i (by omega), slot_store_self hrow hout']
        rfl
      | succ j =>
        rw [Nat.add_comm j 1, ← Nat.add_assoc, hafter j k' hk', Nat.add_comm 1 j]
        rfl

/-- Out of its own badge, the row of a key is cut as the file has it. -/
private theorem rowIn_badgeAt (hbadge : 0 < s.layout.badgeRows) (k : ℕ) :
    s.rowIn (s.table.badgeAt (s.table.badgeOf k)) k = s.table.storedRow k := by
  rw [rowIn, BadgeGather.badgeAt]
  show slot s.layout.rowBytes (slot (s.layout.badgeRows * s.layout.rowBytes) _ _) _ = _
  rw [slot_slot _ _ (Nat.mod_lt _ hbadge), BadgeGather.badgeOf]
  show slot _ _ (k % s.layout.rowsPerShard / s.layout.badgeRows * s.layout.badgeRows + _) = _
  rw [Nat.div_add_mod']
  rfl

/-- The gather succeeds. A key that the word names is served out of the buffer as it is, any other
out of its own badge. -/
theorem gather_eq_ok {shards rowsPerShard width : ℕ}
    (hlayout : s.layout = Layout.new shards rowsPerShard width 1) (hos : s.os.Delivers)
    (hfiles : ∀ f ∈ s.files, s.layout.badgeBytes ∣ f.length ∧ rowsPerShard * width ≤ f.length)
    (hkeys : ∀ k ∈ keys, k < shards * rowsPerShard) (hout : keys.length * width ≤ out.length) :
    ∃ out', s.gather keys out = .ok out' ∧ ∀ i k, keys[i]? = some k →
      (out'.drop (i * width)).take width =
        if IsCurrent (wordOf (s.heldAfter (keys.take i))) (s.table.badgeOf k) then
          s.rowIn (s.bufferOf (s.heldAfter (keys.take i))) k
        else ((s.files.getD (k / rowsPerShard) []).drop (k % rowsPerShard * width)).take width := by
  have hw : s.layout.width = width := by rw [hlayout]; rfl
  have hrb : s.layout.rowBytes = width := by rw [hlayout]; exact Nat.mul_one width
  have hrps : s.layout.rowsPerShard = rowsPerShard := by rw [hlayout]; rfl
  have hbadge : 0 < s.layout.badgeRows := hlayout ▸ Layout.badgeRows_new_pos _ _ _ _
  have hrange : ∀ k ∈ keys, s.layout.InRange k := fun k hk => by
    rw [hlayout]
    exact hkeys k hk
  have hstored : ∀ k, s.table.storedRow k =
      ((s.files.getD (k / rowsPerShard) []).drop (k % rowsPerShard * width)).take width := by
    intro k
    show slot s.layout.rowBytes (s.files.getD (k / s.layout.rowsPerShard) [])
      (k % s.layout.rowsPerShard) = _
    rw [hrb, hrps]
    rfl
  have hwhole : ∀ k ∈ keys, s.layout.InRange k ∧ s.table.WholeBadge k := by
    refine fun k hk => ⟨hrange k hk, @BadgeGather.wholeBadge_of_dvd s.table k (hrange k hk) ?_⟩
    intro f hf
    show _ ∧ s.layout.rowsPerShard * s.layout.rowBytes ≤ f.length
    rw [hrps, hrb]
    exact hfiles f hf
  -- the store starts with no badge and holds, at each key, the badge of the key before it
  obtain ⟨out', hok, -, hslots⟩ := @gatherFrom_eq_ok s none out keys hos hbadge (hw.trans hrb.symm)
    (fun b hb => by cases hb) hwhole 0 (by rw [Nat.zero_add, hw]; exact hout)
  refine ⟨out', hok, fun i k hk => ?_⟩
  have hslot := hslots i k hk
  rw [Nat.zero_add, hw, List.take_add_one, hk, Option.toList_some, List.foldl_append] at hslot
  refine hslot.trans ?_
  show s.rowIn (s.bufferOf (s.heldNext (s.heldAfter (keys.take i)) k)) k = _
  -- the badge that is held is kept if it is the key's own, and read again if not
  rw [heldNext]
  split_ifs
  · rfl
  · exact (rowIn_badgeAt hbadge k).trans (hstored k)

end Gather

/-- On a table of whole badges (`hfiles`) whose reads deliver (`hos`), the gather returns the rows
of the files, in whatever order the keys are, iff every key that the word names finds the bytes of
its row in the buffer. The word names the badge of a key when the shard is the whole word and the
badge its upper half. -/
theorem gather_iff {s : ShardedStore} {shards rowsPerShard width : ℕ}
    (hlayout : s.layout = Layout.new shards rowsPerShard width 1) (hos : s.os.Delivers)
    (hfiles : ∀ f ∈ s.files, s.layout.badgeBytes ∣ f.length ∧ rowsPerShard * width ≤ f.length)
    {keys : List ℕ} (hkeys : ∀ k ∈ keys, k < shards * rowsPerShard) {out : Bytes}
    (hout : keys.length * width ≤ out.length) :
    (∃ out', s.gather keys out = .ok out' ∧ ∀ i k, keys[i]? = some k →
        (out'.drop (i * width)).take width =
          ((s.files.getD (k / rowsPerShard) []).drop (k % rowsPerShard * width)).take width) ↔
      ∀ i k, keys[i]? = some k →
        IsCurrent (wordOf (s.heldAfter (keys.take i))) (s.table.badgeOf k) →
        s.rowIn (s.bufferOf (s.heldAfter (keys.take i))) k =
          ((s.files.getD (k / rowsPerShard) []).drop (k % rowsPerShard * width)).take width := by
  obtain ⟨out', hok, hserved⟩ := gather_eq_ok hlayout hos hfiles hkeys hout
  constructor
  · rintro ⟨out'', hok', hrows⟩ i k hk hcurrent
    obtain rfl : out' = out'' := Except.ok.inj (hok.symm.trans hok')
    rw [← hrows i k hk, hserved i k hk, if_pos hcurrent]
  · intro hagree
    refine ⟨out', hok, fun i k hk => ?_⟩
    rw [hserved i k hk]
    split_ifs with hcurrent
    · exact hagree i k hk hcurrent
    · rfl

/-- Two shards of two rows, each a badge of its own. -/
def twoBadges : ShardedStore where
  layout := Layout.new 2 2 2049 1
  files :=
    [List.replicate 2049 1 ++ List.replicate 2049 2, List.replicate 2049 3 ++ List.replicate 2049 4]
  os := fullPread
  files_length := rfl

theorem twoBadges_files : ∀ f ∈ twoBadges.files, twoBadges.layout.badgeBytes ∣ f.length ∧
    2 * 2049 ≤ f.length := by
  have hall : ∀ a b : UInt8,
      (List.replicate 2049 a ++ List.replicate 2049 b).length = 2 * 2049 := by
    intro a b
    rw [List.length_append, List.length_replicate, List.length_replicate]
  intro f hf
  simp only [twoBadges, List.mem_cons, List.not_mem_nil, or_false] at hf
  rcases hf with rfl | rfl <;> rw [hall] <;> decide

theorem gather_iff_twoBadges :
    (∃ out', twoBadges.gather [0] (List.replicate 2049 0) = .ok out' ∧ ∀ i k, [0][i]? = some k →
        (out'.drop (i * 2049)).take 2049 =
          ((twoBadges.files.getD (k / 2) []).drop (k % 2 * 2049)).take 2049) ↔
      ∀ i k, [0][i]? = some k →
        IsCurrent (wordOf (twoBadges.heldAfter ([0].take i))) (twoBadges.table.badgeOf k) →
        twoBadges.rowIn (twoBadges.bufferOf (twoBadges.heldAfter ([0].take i))) k =
          ((twoBadges.files.getD (k / 2) []).drop (k % 2 * 2049)).take 2049 :=
  gather_iff rfl fullPread_full.delivers twoBadges_files (by decide)
    (Nat.le_of_eq (by rw [List.length_replicate]; rfl))

/-- After badge 1 of shard 0, the first row of shard 1 is taken to be in the buffer: its slot gets
the second row of shard 0. -/
theorem not_gather_twoBadges :
    (∀ k ∈ [1, 2], twoBadges.layout.InRange k) ∧
      ¬ ∃ out', twoBadges.gather [1, 2] (List.replicate (2 * 2049) 0) = .ok out' ∧
        ∀ i k, [1, 2][i]? = some k → (out'.drop (i * 2049)).take 2049 =
          ((twoBadges.files.getD (k / 2) []).drop (k % 2 * 2049)).take 2049 := by
  refine ⟨by decide, ?_⟩
  rintro ⟨out'', hok', hrows⟩
  have hkeys : ∀ k ∈ [1, 2], k < 2 * 2 := by decide
  have hout : [1, 2].length * 2049 ≤ (List.replicate (2 * 2049) (0 : UInt8)).length :=
    Nat.le_of_eq (by rw [List.length_replicate]; rfl)
  obtain ⟨out', hok, hserved⟩ :=
    gather_eq_ok (s := twoBadges) rfl fullPread_full.delivers twoBadges_files
    hkeys hout
  obtain rfl : out' = out'' := Except.ok.inj (hok.symm.trans hok')
  have hslot := (hserved 1 2 rfl).symm.trans (hrows 1 2 rfl)
  rw [if_pos (by decide)] at hslot
  -- the rows of the two shards start with different bytes
  exact absurd (congrArg List.head? hslot) (by decide +kernel)

end ShardedStore

end EngramDB
