import EngramDB.Io.Batch.Plans
import EngramDB.Io.Batch.ShortReads

/-!
# Whether the read paths agree

On keys with whole badges all read paths return the rows of the files
(`pathsReturn_of_wholeBadges`). The paths that read whole badges need them: the last badge of a
shard file is whole only if the number of rows is a multiple of the rows of a badge.
`pathsAgree_iff` says exactly when all paths agree on files of `rowsPerShard` rows.
-/

namespace EngramDB

open SlotBuffer Chunking Grouping

namespace BadgeGather

variable {g : BadgeGather} {keys : List ℕ} {out rows : Bytes} {threads : ℕ}
  {sched : Schedule JobResult} {order : IterOrder BadgeGroup}

/-- Every read path succeeds and leaves `rows` in the output. -/
structure PathsReturn (g : BadgeGather) (sched : Schedule JobResult) (order : IterOrder BadgeGroup)
    (keys : List ℕ) (out : Bytes) (threads : ℕ) (rows : Bytes) : Prop where
  /-- By page, on the pool. -/
  gatherPp : g.gatherPp sched keys out threads = .ok rows
  /-- Key after key. -/
  gatherNaive : g.gatherNaive 0 keys out = (rows, .ok ())
  /-- In threads. -/
  gatherParallel : g.gatherParallel keys out threads = (rows, .ok ())
  /-- Badge by badge. -/
  gatherPlanned : g.gatherPlanned order keys out = .ok rows
  /-- By the plan of the keys. -/
  gatherPlan : ∃ plan, PrefetchPlan.build keys g.layout = .ok plan ∧
    g.gatherPlan order keys plan out = .ok rows

/-- When rows are `width` bytes, all of a row is handed out. -/
theorem rowHead_eq_storedRow {k : ℕ} (hwidth : g.layout.width = g.layout.rowBytes)
    (hk : g.HoldsRow k) : g.rowHead k = g.storedRow k :=
  List.take_of_length_le (Nat.le_of_eq (by rw [length_storedRow hk, hwidth]))

/-- On keys with whole badges, every read path returns the rows of the files. -/
theorem pathsReturn_of_wholeBadges (hfull : g.backend.Full) (hbadge : 0 < g.layout.badgeRows)
    (hwidth : g.layout.width = g.layout.rowBytes) (hne : keys ≠ [])
    (hzero : g.layout.width = 0 → threads ≤ 1 ∨ keys.length ≤ 1024)
    (hkeys : ∀ k ∈ keys, g.layout.InRange k ∧ g.WholeBadge k)
    (hout : out.length = keys.length * g.layout.width) (sched : Schedule JobResult)
    (order : IterOrder BadgeGroup) :
    g.PathsReturn sched order keys out threads (keys.map g.storedRow).flatten := by
  have hrow : ∀ k ∈ keys, g.rowHead k = g.storedRow k := fun k hk =>
    rowHead_eq_storedRow hwidth ((hkeys k hk).2.holdsRow hbadge)
  have hle := Nat.le_of_eq hwidth
  have hrange : ∀ k ∈ keys, g.layout.InRange k := fun k hk => (hkeys k hk).1
  have hplan := build_eq_ok hbadge hrange
  have hplanned := planned_of_build hbadge hrange hplan
  rw [← List.map_congr_left hrow]
  refine ⟨?_, gatherNaive_eq_ok hfull hbadge hle 0 hkeys hout,
    gatherParallel_eq_ok hfull hbadge hle hzero hkeys hout,
    gatherPlanned_eq_ok hfull hbadge hle hkeys hout order, _, hplan, ?_⟩
  · rw [List.map_congr_left hrow]
    exact gatherPp_of_full hfull hbadge hwidth sched hne
      (fun k hk => ⟨(hkeys k hk).1, (hkeys k hk).2.holdsRow hbadge⟩) hout threads
  · rw [gatherPlan_eq_ok hfull hbadge hle (fun k hk => ⟨(hkeys k hk).1, fun _ => (hkeys k hk).2,
      fun h => absurd (hplanned k hk) h⟩) hout order]
    -- every key is planned
    congr 2
    exact List.map_congr_left fun k hk => if_pos (hplanned k hk)

/-- If all read paths return, the request has keys, their badges are whole, and empty rows are not
asked for in threads. -/
theorem PathsReturn.wholeBadges (h : g.PathsReturn sched order keys out threads rows)
    (hbadge : 0 < g.layout.badgeRows) (hkeys : ∀ k ∈ keys, g.layout.InRange k) :
    keys ≠ [] ∧ (g.layout.width = 0 → threads ≤ 1 ∨ keys.length ≤ 1024) ∧
      ∀ k ∈ keys, g.WholeBadge k := by
  refine ⟨?_, fun hzero => ?_, ?_⟩
  · rintro rfl
    have hpp := h.gatherPp
    rw [gatherPp_nil] at hpp
    cases hpp
  · by_contra hsmall
    have hparallel := h.gatherParallel
    simp [BadgeGather.gatherParallel, hsmall, hzero] at hparallel
  · have hnaive : (g.naiveFrom 0 ⟨none, g.zeroBadge⟩ out 0 keys).2 = .ok () :=
      congrArg Prod.snd h.gatherNaive
    exact wholeBadge_of_naiveFrom hbadge (fun b hb => by cases hb) hkeys hnaive

/-- In files of exactly `rowsPerShard` rows, a badge is whole iff its last row is a row of the
shard. -/
theorem wholeBadge_iff {shards rowsPerShard width : ℕ}
    (hlayout : g.layout = Layout.new shards rowsPerShard width 1)
    (hfiles : ∀ f ∈ g.files, f.length = rowsPerShard * width) {k : ℕ} (hk : g.layout.InRange k) :
    g.WholeBadge k ↔ width = 0 ∨
      (k % rowsPerShard / g.layout.badgeRows + 1) * g.layout.badgeRows ≤ rowsPerShard := by
  have hshard := badgeOf_lt hk
  have hfile : g.files.getD (g.badgeOf k).1 [] = g.files[(g.badgeOf k).1] := by
    simp [List.getD, hshard]
  have hrb : g.layout.rowBytes = width := by rw [hlayout]; exact Nat.mul_one width
  have hrps : g.layout.rowsPerShard = rowsPerShard := by rw [hlayout]; rfl
  rw [WholeBadge, HoldsBadge, hfile, hfiles _ (List.getElem_mem hshard), Layout.badgeBytes, hrb,
    ← Nat.mul_assoc, badgeOf, hrps]
  rcases Nat.eq_zero_or_pos width with rfl | hpos
  · simp
  · rw [Nat.mul_le_mul_right_iff hpos]
    exact (or_iff_right hpos.ne').symm

/-- On files of exactly `rowsPerShard` rows of one-byte elements (`hfiles`), read without short
reads (`hfull`), all read paths succeed on keys in range and return the same bytes iff the request
has keys, no key lies in a last badge that is not whole, and empty rows are not asked for in
threads. -/
theorem pathsAgree_iff {g : BadgeGather} {shards rowsPerShard width : ℕ}
    (hlayout : g.layout = Layout.new shards rowsPerShard width 1) (hfull : g.backend.Full)
    (hfiles : ∀ f ∈ g.files, f.length = rowsPerShard * width) {keys : List ℕ}
    (hkeys : ∀ k ∈ keys, k < shards * rowsPerShard) {out : Bytes}
    (hout : out.length = keys.length * width) (threads : ℕ) (sched : Schedule JobResult)
    (order : IterOrder BadgeGroup) :
    (∃ rows, g.PathsReturn sched order keys out threads rows) ↔
      keys ≠ [] ∧ (width = 0 → threads ≤ 1 ∨ keys.length ≤ 1024) ∧ ∀ k ∈ keys, width = 0 ∨
        (k % rowsPerShard / g.layout.badgeRows + 1) * g.layout.badgeRows ≤ rowsPerShard := by
  have hw : g.layout.width = width := by rw [hlayout]; rfl
  have hrb : g.layout.rowBytes = width := by rw [hlayout]; exact Nat.mul_one width
  have hbadge : 0 < g.layout.badgeRows := hlayout ▸ Layout.badgeRows_new_pos _ _ _ _
  have hrange : ∀ k ∈ keys, g.layout.InRange k := fun k hk => by
    rw [hlayout]
    exact hkeys k hk
  constructor
  · rintro ⟨rows, hrows⟩
    obtain ⟨hne, hzero, hwhole⟩ := hrows.wholeBadges hbadge hrange
    rw [hw] at hzero
    exact ⟨hne, hzero, fun k hk => (wholeBadge_iff hlayout hfiles (hrange k hk)).mp (hwhole k hk)⟩
  · rintro ⟨hne, hzero, hwhole⟩
    refine ⟨_, pathsReturn_of_wholeBadges hfull hbadge (hw.trans hrb.symm) hne (by rwa [hw])
      (fun k hk => ⟨hrange k hk, ?_⟩) (by rw [hw, hout]) sched order⟩
    exact (wholeBadge_iff hlayout hfiles (hrange k hk)).mpr (hwhole k hk)

theorem pathsAgree_iff_oneRow :
    (∃ rows,
      (oneRow (preadvBackend fullPread)).PathsReturn (Schedule.inOrder _) (.asPushed _) [0] [0]
        1 rows) ↔
      [0] ≠ [] ∧ (1 = 0 → 1 ≤ 1 ∨ [0].length ≤ 1024) ∧ ∀ k ∈ [0], 1 = 0 ∨
        (k % 1 / (oneRow (preadvBackend fullPread)).layout.badgeRows + 1) *
          (oneRow (preadvBackend fullPread)).layout.badgeRows ≤ 1 :=
  pathsAgree_iff (g := oneRow (preadvBackend fullPread)) rfl (preadvBackend_full fullPread_full)
    (by decide) (by decide) rfl 1 _ _

/-- The only row of a table lies in a badge that is not whole: `gatherPp` returns the row, and
`gatherNaive` meets the end of the file. -/
theorem not_pathsAgree_oneRow :
    (∀ k ∈ [0], (oneRow (preadvBackend fullPread)).layout.InRange k) ∧
      (oneRow (preadvBackend fullPread)).gatherPp (Schedule.inOrder _) [0] [0] 1 = .ok [7] ∧
      (oneRow (preadvBackend fullPread)).gatherNaive 0 [0] [0] =
        ([0], .error (.error .unexpectedEof)) ∧
      ¬ ∃ rows,
        (oneRow (preadvBackend fullPread)).PathsReturn (Schedule.inOrder _) (.asPushed _) [0]
        [0] 1 rows := by
  have hnaive : (oneRow (preadvBackend fullPread)).gatherNaive 0 [0] [0] =
      ([0], .error (.error .unexpectedEof)) := by rfl
  refine ⟨by decide, by rfl, hnaive, ?_⟩
  rintro ⟨rows, hrows⟩
  have hnaive' := hrows.gatherNaive
  rw [hnaive] at hnaive'
  cases hnaive'

end BadgeGather

end EngramDB
