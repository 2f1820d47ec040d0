import EngramDB.Foundations.Refill
import EngramDB.Io.Batch.Agreement
import EngramDB.Io.Batch.Open

/-!
# `engramdb build`

`cmdBuild` copies the shard files of the full table badge by badge, and pads the last badge of each
with zeros. However the reads of the sources are split, a badge file is its source and the padding
(`badgeFile_eq`), so every key of the table has a whole badge in it, and all read paths return the
rows of the sources (`build_pathsReturn_iff`).
-/

namespace EngramDB

open SlotBuffer Refill Grouping

/-- The layout of the full table. -/
def pleLayout : Layout := Layout.new 128 2500012 160 1

namespace Cli

/-- Why a build fails. -/
inductive BuildError where
  /-- The source of a shard is missing. The number of shards is reported, too. -/
  | missingShard (shard shards : ℕ)
deriving DecidableEq, Repr

/-- The badge file of a shard: its source, read badge by badge into one buffer. -/
def badgeFile (s : Splits) (src : Bytes) : Bytes :=
  blocks s pleLayout.badgeBytes 0 (src.length + 1) (List.replicate pleLayout.badgeBytes 0) src []

/-- Write the badge files of `n` shards, from `shard` on. -/
def buildShards (splits : ℕ → Splits) (src : TableDir) :
    ℕ → ℕ → TableDir → TableDir × Except BuildError Unit
  | 0, _, dst => (dst, .ok ())
  | n + 1, shard, dst =>
    match src.shardFile shard with
    | none => (dst, .error (.missingShard shard pleLayout.shards))
    | some f =>
      let badge := badgeFile (splits shard) f
      buildShards splits src n (shard + 1)
        { dst with badgeFile := fun i => if i = shard then some badge else dst.badgeFile i }

/-- `engramdb build <shard_dir> <out_dir>`: what is then in the output directory, and the result.
The reads of the source of shard `i` are split by `splits i`. -/
def cmdBuild (splits : ℕ → Splits) (src dst : TableDir) : TableDir × Except BuildError Unit :=
  buildShards splits src pleLayout.shards 0 dst

/-- The row of a key in the source files. -/
def sourceRow (src : TableDir) (k : ℕ) : Bytes :=
  slot 160 ((src.shardFile (k / 2500012)).getD []) (k % 2500012)

/-- Every shard has a source file with all its rows. -/
def HasSources (src : TableDir) : Prop :=
  ∀ i < 128, ∃ f, src.shardFile i = some f ∧ 2500012 * 160 ≤ f.length

variable {splits : ℕ → Splits} {src dst : TableDir}

/-- A badge file is its source and zeros up to the next multiple of the badge size. -/
theorem badgeFile_eq (s : Splits) (f : Bytes) : badgeFile s f = padded 4000 0 f :=
  (blocks_eq s (by decide) 0 List.length_replicate (Nat.lt_succ_self _) []).trans
    (List.nil_append _)

/-- A build whose sources exist writes the badge files of its shards, and nothing else. -/
private theorem buildShards_eq_ok {n shard : ℕ}
    (hsrc : ∀ i, shard ≤ i → i < shard + n → (src.shardFile i).isSome) :
    buildShards splits src n shard dst =
      ({ dst with
          badgeFile := fun i =>
            if shard ≤ i ∧ i < shard + n then (src.shardFile i).map (badgeFile (splits i))
            else dst.badgeFile i }, .ok ()) := by
  induction n generalizing shard dst with
  | zero =>
    have hnone : ∀ i, ¬ (shard ≤ i ∧ i < shard + 0) := fun i => by omega
    simp only [buildShards, hnone, if_false]
  | succ n ih =>
    obtain ⟨f, hf⟩ := Option.isSome_iff_exists.mp (hsrc shard (Nat.le_refl _) (by omega))
    simp only [buildShards, hf]
    rw [ih fun i hi hlt => hsrc i (by omega) (by omega)]
    congr 2
    funext i
    dsimp only
    -- a shard before this one, this one, or one that is copied later
    rcases Nat.lt_trichotomy i shard with hlt | rfl | hgt
    · rw [if_neg (by omega), if_neg (by omega), if_neg (by omega)]
    · rw [if_neg (by omega), if_pos rfl, if_pos (by omega), hf]
      rfl
    · by_cases hi : i < shard + 1 + n
      · rw [if_pos (by omega), if_pos (by omega)]
      · rw [if_neg (by omega), if_neg (by omega), if_neg (by omega)]

theorem cmdBuild_eq_ok (hsrc : HasSources src) :
    cmdBuild splits src dst =
      ({ dst with
          badgeFile := fun i =>
            if i < 128 then (src.shardFile i).map (badgeFile (splits i)) else dst.badgeFile i },
        .ok ()) := by
  rw [cmdBuild, buildShards_eq_ok]
  · simp only [Nat.zero_le, true_and, Nat.zero_add]
    rfl
  · intro i _ hi
    have hi' : i < 128 := (Nat.zero_add pleLayout.shards ▸ hi :)
    obtain ⟨f, hf, -⟩ := hsrc i hi'
    simp [hf]

/-- The file that a shard of the built table is read from. -/
theorem file_cmdBuild (splits : ℕ → Splits) (dst : TableDir) (hsrc : HasSources src) {i : ℕ}
    (hi : i < 128) :
    ∃ f, src.shardFile i = some f ∧ 2500012 * 160 ≤ f.length ∧
      (cmdBuild splits src dst).1.file i = some ((dst.shardFile i).getD (padded 4000 0 f)) := by
  obtain ⟨f, hf, hlen⟩ := hsrc i hi
  refine ⟨f, hf, hlen, ?_⟩
  rw [cmdBuild_eq_ok hsrc, TableDir.file]
  cases dst.shardFile i with
  | some f' => rfl
  | none => simp [hi, hf, badgeFile_eq]

/-- A padded source holds the badge of every row, and its rows. -/
private theorem padded_source {f : Bytes} (hf : 2500012 * 160 ≤ f.length) {r : ℕ}
    (hr : r < 2500012) :
    (r / 25 + 1) * 4000 ≤ (padded 4000 0 f).length ∧
      slot 160 (padded 4000 0 f) r = slot 160 f r := by
  constructor
  · obtain ⟨m, hm⟩ := dvd_length_padded (by decide : 0 < 4000) (0 : UInt8) f
    have hle : f.length ≤ (padded 4000 0 f).length := by
      rw [padded, List.length_append]
      omega
    omega
  · rw [slot, padded, List.drop_append_of_le_length (by omega),
      List.take_append_of_le_length (by rw [List.length_drop]; omega)]
    rfl

/-- The built table opens, and each of its shards is read from the badge file, or from the shard
file that the output directory had already. -/
private theorem open_cmdBuild (splits : ℕ → Splits) (dst : TableDir) (hsrc : HasSources src)
    (backend : IoBackend) :
    ∃ g, BadgeGather.openWithBackend (cmdBuild splits src dst).1 pleLayout backend = .ok g ∧
      g.layout = pleLayout ∧ g.backend = backend ∧ ∀ i < 128, ∀ f, src.shardFile i = some f →
        g.files.getD i [] = (dst.shardFile i).getD (padded 4000 0 f) := by
  have hsome : ∀ i < pleLayout.shards, ((cmdBuild splits src dst).1.file i).isSome := by
    intro i hi
    obtain ⟨f, -, -, hfile⟩ := file_cmdBuild splits dst hsrc hi
    simp [hfile]
  refine ⟨_, if_pos hsome, rfl, rfl, fun i hi f hf => ?_⟩
  obtain ⟨f', hf', -, hfile⟩ := file_cmdBuild splits dst hsrc hi
  obtain rfl : f = f' := Option.some.inj (hf.symm.trans hf')
  have hi' : i < pleLayout.shards := hi
  simp [List.getD, hi', hfile]

/-- Every badge file is its source and zeros up to the next multiple of the badge size. -/
def Lossless (splits : ℕ → Splits) (src dst : TableDir) : Prop :=
  (cmdBuild splits src dst).2 = .ok () ∧ ∀ i < 128, ∀ f, src.shardFile i = some f →
    (cmdBuild splits src dst).1.badgeFile i = some (padded pleLayout.badgeBytes 0 f)

/-- The built table opens, and all its read paths return the rows of the sources. -/
def Usable (splits : ℕ → Splits) (src dst : TableDir) (backend : IoBackend)
    (sched : Schedule JobResult) (order : IterOrder BadgeGroup) (keys : List ℕ) (out : Bytes)
    (threads : ℕ) : Prop :=
  ∃ g, BadgeGather.openWithBackend (cmdBuild splits src dst).1 pleLayout backend = .ok g ∧
    g.PathsReturn sched order keys out threads (keys.map (sourceRow src)).flatten

private theorem lossless_cmdBuild (splits : ℕ → Splits) (dst : TableDir) (hsrc : HasSources src) :
    Lossless splits src dst := by
  refine ⟨by rw [cmdBuild_eq_ok hsrc], fun i hi f hf => ?_⟩
  rw [cmdBuild_eq_ok hsrc]
  simp only [if_pos hi, hf, Option.map_some, badgeFile_eq]
  rfl

/-- Whatever the sources hold beyond their rows and however their reads are split, a build is
lossless and all read paths return the rows of the sources iff the request has keys, and a shard
file that the output directory had already holds the badge of each key in full, with the row of the
source. -/
theorem build_pathsReturn_iff {backend : IoBackend} (hfull : backend.Full) (splits : ℕ → Splits)
    {src : TableDir} (hsrc : HasSources src) (dst : TableDir) {keys : List ℕ}
    (hkeys : ∀ k ∈ keys, k < 128 * 2500012) {out : Bytes} (hout : out.length = keys.length * 160)
    (threads : ℕ) (sched : Schedule JobResult) (order : IterOrder BadgeGroup) :
    Lossless splits src dst ∧ Usable splits src dst backend sched order keys out threads ↔
      keys ≠ [] ∧ ∀ k ∈ keys, ∀ f, dst.shardFile (k / 2500012) = some f →
        (k % 2500012 / 25 + 1) * 4000 ≤ f.length ∧ slot 160 f (k % 2500012) = sourceRow src k := by
  obtain ⟨g, hopen, hlayout, hbackend, hfiles⟩ := open_cmdBuild splits dst hsrc backend
  have hfull' : g.backend.Full := hbackend ▸ hfull
  have hbadge : 0 < g.layout.badgeRows := by
    rw [hlayout]
    decide
  have hwidth : g.layout.width = g.layout.rowBytes := by rw [hlayout]; rfl
  have hw : g.layout.width = 160 := by rw [hlayout]; rfl
  have hrange : ∀ k ∈ keys, g.layout.InRange k := fun k hk => by
    rw [hlayout]
    exact hkeys k hk
  -- the badge and the row of a key in the file that its shard is read from
  have hwhole : ∀ k, g.WholeBadge k ↔
      (k % 2500012 / 25 + 1) * 4000 ≤ (g.files.getD (k / 2500012) []).length := by
    intro k
    rw [BadgeGather.WholeBadge, BadgeGather.HoldsBadge, BadgeGather.badgeOf, hlayout]
    exact Iff.rfl
  have hstored : ∀ k, g.storedRow k = slot 160 (g.files.getD (k / 2500012) []) (k % 2500012) := by
    intro k
    rw [BadgeGather.storedRow, BadgeGather.fileRow, hlayout]
    rfl
  have hsource : ∀ k ∈ keys, ∃ f, src.shardFile (k / 2500012) = some f ∧
      2500012 * 160 ≤ f.length ∧
      g.files.getD (k / 2500012) [] = (dst.shardFile (k / 2500012)).getD (padded 4000 0 f) := by
    intro k hk
    have hi : k / 2500012 < 128 := Nat.div_lt_of_lt_mul (by rw [Nat.mul_comm]; exact hkeys k hk)
    obtain ⟨f, hf, hlen⟩ := hsrc _ hi
    exact ⟨f, hf, hlen, hfiles _ hi f hf⟩
  constructor
  · rintro ⟨-, g', hopen', hpaths⟩
    obtain rfl : g = g' := Except.ok.inj (hopen.symm.trans hopen')
    obtain ⟨hne, -, hbadges⟩ := hpaths.wholeBadges hbadge hrange
    refine ⟨hne, fun k hk f hf => ?_⟩
    obtain ⟨f', hf', hlen, hfile⟩ := hsource k hk
    rw [hf, Option.getD_some] at hfile
    refine ⟨by rw [← hfile]; exact (hwhole k).mp (hbadges k hk), ?_⟩
    -- the rows returned are the stored ones
    have hrows := hpaths.gatherNaive
    rw [BadgeGather.gatherNaive_eq_ok hfull' hbadge (Nat.le_of_eq hwidth) 0
      (fun k hk => ⟨hrange k hk, hbadges k hk⟩) (by rw [hw]; exact hout)] at hrows
    have hflat := (Prod.mk.inj hrows).1
    obtain ⟨i, hi⟩ := List.mem_iff_getElem?.mp hk
    have hl : slot 160 (keys.map g.rowHead).flatten i = g.rowHead k := by
      refine slot_flatten (fun row hrow => ?_) (by rw [List.getElem?_map, hi]; rfl)
      obtain ⟨k', hk', rfl⟩ := List.mem_map.mp hrow
      rw [(hbadges k' hk').length_rowHead hbadge (Nat.le_of_eq hwidth), hw]
    have hr : slot 160 (keys.map (sourceRow src)).flatten i = sourceRow src k := by
      refine slot_flatten (fun row hrow => ?_) (by rw [List.getElem?_map, hi]; rfl)
      obtain ⟨k', hk', rfl⟩ := List.mem_map.mp hrow
      obtain ⟨f₁, hf₁, hlen₁, -⟩ := hsource k' hk'
      rw [sourceRow, hf₁, Option.getD_some]
      exact length_slot (by omega)
    rw [← hfile, ← hstored,
      ← BadgeGather.rowHead_eq_storedRow hwidth ((hbadges k hk).holdsRow hbadge), ← hl, hflat, hr]
  · rintro ⟨hne, hown⟩
    refine ⟨lossless_cmdBuild splits dst hsrc, g, hopen, ?_⟩
    have hrow : ∀ k ∈ keys, g.WholeBadge k ∧ g.storedRow k = sourceRow src k := by
      intro k hk
      obtain ⟨f, hf, hlen, hfile⟩ := hsource k hk
      rw [hwhole, hstored, hfile]
      cases hdst : dst.shardFile (k / 2500012) with
      | some f' => exact hown k hk f' hdst
      | none =>
        -- the padded source
        rw [Option.getD_none, sourceRow, hf, Option.getD_some]
        exact padded_source hlen (Nat.mod_lt k (by decide))
    rw [← List.map_congr_left fun k hk => (hrow k hk).2]
    exact BadgeGather.pathsReturn_of_wholeBadges hfull' hbadge hwidth hne
      (fun h0 => by rw [hw] at h0; cases h0) (fun k hk => ⟨hrange k hk, (hrow k hk).1⟩)
      (by rw [hw]; exact hout) sched order

/-- Sources of zeros. -/
def zeroSources : TableDir := ⟨fun _ => some (List.replicate (2500012 * 160) 0), fun _ => none⟩

private theorem hasSources_zeroSources : HasSources zeroSources := fun _ _ =>
  ⟨_, rfl, Nat.le_of_eq List.length_replicate.symm⟩

theorem build_pathsReturn_iff_zeroSources :
    Lossless (fun _ => .whole) zeroSources .empty ∧
        Usable (fun _ => .whole) zeroSources .empty (preadvBackend fullPread) (Schedule.inOrder _)
          (.asPushed _) [2500011] (List.replicate 160 0) 1 ↔
      [2500011] ≠ [] ∧ ∀ k ∈ [2500011], ∀ f, TableDir.empty.shardFile (k / 2500012) = some f →
        (k % 2500012 / 25 + 1) * 4000 ≤ f.length ∧
          slot 160 f (k % 2500012) = sourceRow zeroSources k :=
  build_pathsReturn_iff (preadvBackend_full fullPread_full) _ hasSources_zeroSources _ (by decide)
    List.length_replicate 1 _ _

/-- For no keys, `gatherPp` panics on the built table. -/
theorem not_usable_noKeys :
    ¬ Usable (fun _ => .whole) zeroSources .empty (preadvBackend fullPread) (Schedule.inOrder _)
      (.asPushed _) [] [] 1 := by
  rintro ⟨g, -, hpaths⟩
  have hpp := hpaths.gatherPp
  rw [BadgeGather.gatherPp_nil] at hpp
  cases hpp

end Cli

end EngramDB
