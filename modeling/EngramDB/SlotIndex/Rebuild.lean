import EngramDB.SlotIndex.Denotes

/-!
# Building into a directory again and again

A build of layout `v2` writes no file for an empty bucket and leaves the file of an older build
there. A reader takes that file for the bucket, so that the index still finds grams that its last
build did not have.

* `bucketFile_runBuilds`: which build wrote the file of a bucket;
* `lookupsOn_runBuilds`: what lookups answer after a run of builds;
* `forgetsPast_iff`: lookups answer like an index of the last successful build alone iff no older
  file has a gram in an empty bucket of this build.
-/

namespace EngramDB

namespace SlotIndex

open Bucketing DiskSlotIndexReader

/-- The arguments of one build. -/
structure BuildCall where
  /-- The keys file. -/
  keys : KeysFile
  /-- Number of buckets. -/
  numBuckets : ℕ
  /-- Whether there is one file for all buckets. -/
  singleFile : Bool

/-- The directory after a build, which may fail. -/
def BuildCall.build (c : BuildCall) (dir : IndexDir) : IndexDir :=
  (buildFromKeysFileOpt c.keys c.numBuckets c.singleFile dir).2

/-- The directory after a run of builds. -/
def runBuilds (dir : IndexDir) (calls : List BuildCall) : IndexDir :=
  calls.foldl (fun dir c => c.build dir) dir

/-- The answers to lookups on a directory, one after another. -/
def lookupsOn (dir : IndexDir) (cacheCapacity : ℕ) (queries : List (Gram × ℕ)) :
    Except String (List (Outcome String Bool)) :=
  (openDir dir cacheCapacity).map fun r => r.lookups queries

/-- A build succeeds: what is in the directory does not matter. -/
def BuildCall.Succeeds (c : BuildCall) : Prop := (groupRecords c.keys c.numBuckets).isOk

instance (c : BuildCall) : Decidable c.Succeeds := inferInstanceAs (Decidable (_ = true))

/-- After a run of builds, lookups answer like an index that is built by `last` alone. -/
def ForgetsPast (path : String) (calls : List BuildCall) (last : BuildCall) : Prop :=
  ∀ cacheCapacity queries,
    lookupsOn (runBuilds (.empty path) calls) cacheCapacity queries =
      lookupsOn (last.build (.empty path)) cacheCapacity queries

/-- A gram of the keys file is in bucket `b`. -/
def BuildCall.HasGram (c : BuildCall) (b : ℕ) : Prop :=
  ∃ g ∈ c.keys.grams, bucketOf (keyFromGram g) c.numBuckets = b

instance (c : BuildCall) (b : ℕ) : Decidable (c.HasGram b) :=
  inferInstanceAs (Decidable (∃ g ∈ _, _))

/-- A build writes the file of bucket `b`. -/
def BuildCall.Writes (c : BuildCall) (b : ℕ) : Prop :=
  c.Succeeds ∧ c.singleFile = false ∧ b < c.numBuckets ∧ c.HasGram b

instance (c : BuildCall) (b : ℕ) : Decidable (c.Writes b) := inferInstanceAs (Decidable (_ ∧ _))

/-- The last build that writes the file of bucket `b`. -/
def lastWriter (calls : List BuildCall) (b : ℕ) : Option BuildCall :=
  (calls.filter fun c => c.Writes b).getLast?

/-- No older file has a gram in a bucket that is empty in the last build: the build has one file for
all buckets, or no gram of the build that wrote the file of an empty bucket falls into this
bucket. -/
def NoStale (earlier : List BuildCall) (last : BuildCall) : Prop :=
  last.singleFile = true ∨ ∀ b < last.numBuckets, ¬ last.HasGram b →
    ∀ c, lastWriter earlier b = some c → ∀ g ∈ c.keys.grams,
      bucketOf (keyFromGram g) c.numBuckets = b → bucketOf (keyFromGram g) last.numBuckets ≠ b

section Builds

variable {c : BuildCall} {dir : IndexDir} {b : ℕ}

/-- A bucket is empty iff no gram is in it. -/
theorem bucketRecords_eq_nil_iff :
    bucketRecords c.keys.grams c.numBuckets b = [] ↔ ¬ c.HasGram b := by
  have hiff : (∃ rec, rec ∈ bucketRecords c.keys.grams c.numBuckets b) ↔ c.HasGram b := by
    constructor
    · rintro ⟨rec, hrec⟩
      obtain ⟨hmem, hbucket⟩ := List.mem_filter.mp (mem_sortRecords.mp hrec)
      obtain ⟨s, g, hs, rfl⟩ := mem_recordsOf.mp hmem
      have hg := List.mem_of_getElem? hs
      rw [decide_eq_true_eq, recordBucket, recordKey_record (length_of_mem_grams hg)] at hbucket
      exact ⟨g, hg, hbucket⟩
    · rintro ⟨g, hg, hbucket⟩
      obtain ⟨s, hs⟩ := List.mem_iff_getElem?.mp hg
      refine ⟨record g s, mem_sortRecords.mpr (List.mem_filter.mpr
        ⟨mem_recordsOf.mpr ⟨s, g, hs, rfl⟩, ?_⟩)⟩
      rw [decide_eq_true_eq, recordBucket, recordKey_record (length_of_mem_grams hg), hbucket]
  rw [← hiff, List.eq_nil_iff_forall_not_mem, not_exists]

/-- A build that fails leaves the directory as it was. -/
theorem build_of_not_succeeds (h : ¬ c.Succeeds) (dir : IndexDir) : c.build dir = dir := by
  rw [BuildCall.build, buildFromKeysFileOpt]
  cases hgroup : groupRecords c.keys c.numBuckets with
  | error e => rfl
  | ok res => exact absurd (by rw [BuildCall.Succeeds, hgroup]; rfl) h

/-- A build that succeeds writes the buckets of its keys file. -/
theorem exists_grouped_of_succeeds (h : c.Succeeds) :
    ∃ cs offs grouped, Grouped c.keys c.numBuckets cs offs grouped ∧
      ∀ dir, c.build dir = emit c.numBuckets c.singleFile cs offs grouped dir := by
  rw [BuildCall.Succeeds] at h
  cases hgroup : groupRecords c.keys c.numBuckets with
  | error e =>
    rw [hgroup] at h
    cases h
  | ok res =>
    obtain ⟨cs, offs, grouped⟩ := res
    refine ⟨cs, offs, grouped, groupRecords_spec hgroup, fun dir => ?_⟩
    rw [BuildCall.build, buildFromKeysFileOpt, hgroup]

/-- A build changes the file of a bucket only by writing it. -/
private theorem bucketFile_build :
    (c.build dir).bucketFile b =
      if c.Writes b then bucketRecords c.keys.grams c.numBuckets b else dir.bucketFile b := by
  by_cases hs : c.Succeeds
  · obtain ⟨cs, offs, grouped, hgrouped, hbuild⟩ := exists_grouped_of_succeeds hs
    rw [hbuild]
    cases hsingle : c.singleFile with
    | true =>
      rw [if_neg fun h => by simp [h.2.1] at hsingle]
      rfl
    | false =>
      have hiff : c.Writes b ↔
          b < c.numBuckets ∧ bucketRecords c.keys.grams c.numBuckets b ≠ [] := by
        rw [BuildCall.Writes, hsingle, ne_eq, bucketRecords_eq_nil_iff, not_not]
        exact ⟨fun h => h.2.2, fun h => ⟨hs, rfl, h⟩⟩
      simp only [IndexDir.bucketFile, emit, Bool.false_eq_true, if_false,
        hgrouped.emitBuckets_apply, hiff]
      split_ifs
      · exact parseRecords_bucketRecords (fun _ => length_of_mem_grams) b
      · rfl
  · rw [build_of_not_succeeds hs, if_neg fun h => hs h.1]

end Builds

section Runs

variable {calls earlier failed : List BuildCall} {last : BuildCall} {path : String}

theorem runBuilds_append (dir : IndexDir) (calls calls' : List BuildCall) :
    runBuilds dir (calls ++ calls') = runBuilds (runBuilds dir calls) calls' :=
  List.foldl_append

/-- Builds that all fail (`h`) leave the directory as it was. -/
private theorem runBuilds_of_failed (h : ∀ c ∈ failed, ¬ c.Succeeds) (dir : IndexDir) :
    runBuilds dir failed = dir := by
  induction failed with
  | nil => rfl
  | cons c failed ih =>
    rw [runBuilds, List.foldl_cons, build_of_not_succeeds (h c (by simp))]
    exact ih fun c' hc' => h c' (by simp [hc'])

/-- The file of a bucket is from the last build that wrote it. -/
theorem bucketFile_runBuilds (calls : List BuildCall) (path : String) (b : ℕ) :
    (runBuilds (.empty path) calls).bucketFile b =
      match lastWriter calls b with
      | some c => bucketRecords c.keys.grams c.numBuckets b
      | none => [] := by
  induction calls using List.reverseRecOn with
  | nil => rfl
  | append_singleton calls c ih =>
    have hrun : runBuilds (.empty path) (calls ++ [c]) = c.build (runBuilds (.empty path) calls) :=
      runBuilds_append _ _ _
    rw [hrun, bucketFile_build, lastWriter, List.filter_append, List.filter_singleton]
    by_cases hw : c.Writes b
    · simp [hw]
    · rw [if_neg hw, ih, lastWriter]
      simp [hw]

theorem sorted_runBuilds (calls : List BuildCall) (path : String) :
    (runBuilds (.empty path) calls).Sorted := by
  intro b
  rw [bucketFile_runBuilds]
  cases lastWriter calls b with
  | none => exact .nil
  | some c => exact pairwise_sortRecords _

/-- Lookups after a build answer by the records that the build wrote or left. -/
theorem lookupsOn_build (h : last.Succeeds) {dir : IndexDir} (hdir : dir.Sorted)
    (cacheCapacity : ℕ) (queries : List (Gram × ℕ)) :
    lookupsOn (last.build dir) cacheCapacity queries = .ok (queries.map fun q =>
      answer (slotsOf (builtContent last.keys.grams last.numBuckets last.singleFile dir)
        last.numBuckets q.1.1) q.1.1 q.2) := by
  obtain ⟨cs, offs, grouped, hgrouped, hbuild⟩ := exists_grouped_of_succeeds h
  obtain ⟨r, hopen, -, hserves⟩ := hgrouped.openDir_emit hdir last.singleFile cacheCapacity
  rw [lookupsOn, hbuild, hopen, ← hserves.lookups]
  rfl

/-- A run of builds leaves what its last successful build leaves. -/
private theorem runBuilds_eq (hfailed : ∀ c ∈ failed, ¬ c.Succeeds) :
    runBuilds (.empty path) (earlier ++ last :: failed) =
      last.build (runBuilds (.empty path) earlier) := by
  rw [runBuilds_append]
  exact runBuilds_of_failed hfailed _

/-- A run of builds forgets the past iff every gram has the slots that it has in the last build. -/
private theorem forgetsPast_iff_answers (hlast : last.Succeeds)
    (hfailed : ∀ c ∈ failed, ¬ c.Succeeds) :
    ForgetsPast path (earlier ++ last :: failed) last ↔ ∀ (parts : Gram) (slot : ℕ),
      answer (slotsOf (builtContent last.keys.grams last.numBuckets last.singleFile
          (runBuilds (.empty path) earlier)) last.numBuckets parts.1) parts.1 slot =
        answer (slotsOf (bucketRecords last.keys.grams last.numBuckets) last.numBuckets parts.1)
          parts.1 slot := by
  have hfresh := lookupsOn_build hlast (IndexDir.sorted_empty path)
  have hrun := lookupsOn_build hlast (sorted_runBuilds earlier path)
  rw [builtContent_empty] at hfresh
  rw [ForgetsPast, runBuilds_eq hfailed]
  constructor
  · intro h parts slot
    have hone := h 1 [(parts, slot)]
    rw [hrun, hfresh] at hone
    simpa using hone
  · intro h cacheCapacity queries
    rw [hrun, hfresh]
    exact congrArg Except.ok (List.map_congr_left fun q _ => h q.1 q.2)

/-- A gram that only an older file has is still found. -/
private theorem slotsOf_ne_nil_of_stale (path : String) (hsingle : last.singleFile = false) {b : ℕ}
    (hempty : ¬ last.HasGram b) {c : BuildCall} (hwriter : lastWriter earlier b = some c)
    {g : List UInt64} (hg : g ∈ c.keys.grams) (hb : bucketOf (keyFromGram g) c.numBuckets = b)
    (hb' : bucketOf (keyFromGram g) last.numBuckets = b) :
    slotsOf (builtContent last.keys.grams last.numBuckets last.singleFile
      (runBuilds (.empty path) earlier)) last.numBuckets g ≠ [] := by
  obtain ⟨s, hs⟩ := List.mem_iff_getElem?.mp hg
  have hlen := length_of_mem_grams hg
  refine List.ne_nil_of_mem (a := slotOfRecord (record g s)) (mem_slotsOf.mpr
    ⟨record g s, ?_, recordKey_record hlen, rfl⟩)
  rw [hb', builtContent, if_neg, bucketFile_runBuilds, hwriter]
  · refine mem_sortRecords.mpr (List.mem_filter.mpr ⟨mem_recordsOf.mpr ⟨s, g, hs, rfl⟩, ?_⟩)
    rw [decide_eq_true_eq, recordBucket, recordKey_record hlen, hb]
  · rw [hsingle, bucketRecords_eq_nil_iff.mpr hempty]
    simp

/-- Without stale grams, every gram has the slots that it has in the last build. -/
private theorem slotsOf_of_noStale (h : NoStale earlier last) (hpos : 0 < last.numBuckets)
    (parts : Gram) :
    slotsOf (builtContent last.keys.grams last.numBuckets last.singleFile
        (runBuilds (.empty path) earlier)) last.numBuckets parts.1 =
      slotsOf (bucketRecords last.keys.grams last.numBuckets) last.numBuckets parts.1 := by
  rw [slotsOf, slotsOf, builtContent]
  split_ifs with hown
  · rfl
  · rw [not_or, not_not, Bool.not_eq_true] at hown
    obtain ⟨hsingle, hempty⟩ := hown
    have hstale := (h.resolve_left (by simp [hsingle])) _ (bucketOf_lt (keyFromGram parts.1) hpos)
      (bucketRecords_eq_nil_iff.mp hempty)
    -- a record of the older file that has the key would be a stale gram
    have hnone : matching ((runBuilds (.empty path) earlier).bucketFile
        (bucketOf (keyFromGram parts.1) last.numBuckets)) (keyFromGram parts.1) = [] := by
      rw [bucketFile_runBuilds]
      cases hwriter : lastWriter earlier (bucketOf (keyFromGram parts.1) last.numBuckets) with
      | none => rfl
      | some c =>
        refine List.filter_eq_nil_iff.mpr fun rec hrec hkey => ?_
        obtain ⟨hmem, hbucket⟩ := List.mem_filter.mp (mem_sortRecords.mp hrec)
        obtain ⟨s, g, hs, rfl⟩ := mem_recordsOf.mp hmem
        have hg := List.mem_of_getElem? hs
        rw [decide_eq_true_eq, recordKey_record (length_of_mem_grams hg)] at hkey
        rw [decide_eq_true_eq, recordBucket, recordKey_record (length_of_mem_grams hg)] at hbucket
        exact hstale c hwriter g hg hbucket (by rw [hkey])
    rw [hnone, hempty]
    rfl

end Runs

/-- After any run of builds into an empty directory, of which `last` is the last one that succeeded
(`hlast`, `hfailed`), lookups answer like an index that is built by this build alone iff no older
file has a gram in a bucket that is empty in this build. -/
theorem forgetsPast_iff {earlier failed : List BuildCall} {last : BuildCall} (hlast : last.Succeeds)
    (hfailed : ∀ c ∈ failed, ¬ c.Succeeds) (path : String) :
    ForgetsPast path (earlier ++ last :: failed) last ↔ NoStale earlier last := by
  rw [forgetsPast_iff_answers hlast hfailed]
  constructor
  · intro h
    rw [NoStale, or_iff_not_imp_left, Bool.not_eq_true]
    intro hsingle b hb hempty c hwriter g hg hbc hbl
    have hfresh :
        slotsOf (bucketRecords last.keys.grams last.numBuckets) last.numBuckets g = [] := by
      rw [slotsOf, hbl, bucketRecords_eq_nil_iff.mpr hempty]
      rfl
    have hstale := slotsOf_ne_nil_of_stale path hsingle hempty hwriter hg hbc hbl
    have hanswer := h ⟨g, length_of_mem_grams hg⟩ 0
    simp only [answer, hfresh, if_pos, if_neg hstale, reduceCtorEq] at hanswer
  · intro h parts slot
    obtain ⟨cs, offs, grouped, hgrouped, -⟩ := exists_grouped_of_succeeds hlast
    rw [slotsOf_of_noStale h hgrouped.numBuckets_pos]

theorem forgetsPast_iff_twoBuilds :
    let sevens : BuildCall := ⟨.ofText (Text.unlines (List.replicate 16 ['7'])), 2, false⟩
    let last : BuildCall :=
      ⟨.ofText (Text.unlines (List.replicate 15 ['7'] ++ [['8']])), 2, false⟩
    ForgetsPast "index" [sevens, last, ⟨.ofText ['x'], 2, false⟩] last ↔
      NoStale [sevens] last :=
  @forgetsPast_iff [⟨.ofText (Text.unlines (List.replicate 16 ['7'])), 2, false⟩]
    [⟨.ofText ['x'], 2, false⟩] _ (by decide +kernel)
    (by simp only [List.mem_singleton, forall_eq]; decide +kernel) "index"

/-- The gram of an older build is found after a build that did not have it. -/
theorem not_forgetsPast_otherGram :
    let sevens : BuildCall := ⟨.ofText (Text.unlines (List.replicate 16 ['7'])), 2, false⟩
    let last : BuildCall :=
      ⟨.ofText (Text.unlines (List.replicate 15 ['7'] ++ [['8']])), 2, false⟩
    last.Succeeds ∧ ¬ ForgetsPast "index" [sevens, last] last := by
  refine ⟨by decide +kernel, fun h => ?_⟩
  have hlookup := h 1 [(⟨List.replicate 16 7, rfl⟩, 0)]
  revert hlookup
  decide +kernel

end SlotIndex

end EngramDB
