import EngramDB.Io.Batch

/-!
# What a gather computes, job by job

Every successful `gatherPp` regroups the keys, serves each shard with its own page buffer, and puts
the rows back. This module separates the regrouping from the reading:

* `tasks` and `jobs` name the groups and how they are divided among the jobs, and
  `jobPairs_perm` says that the jobs together serve every key of the request once;
* `served` is the list of rows that the page buffer yields for one shard;
* `gatherPp_eq_ok`: on keys in range the gather succeeds, and the slot of the output that belongs to
  the `j`-th key of a job is the `j`-th `width`-byte slot of that job's rows, whatever the order in
  which the jobs finish;
* `gatherPp_served`: when rows are `width` bytes, that slot is the row that was served for the key.
-/

namespace EngramDB

open SlotBuffer Chunking Grouping

namespace BadgeGather

variable (g : BadgeGather)

/-- The groups of a request: for each shard with a key, its keys with their positions. -/
def tasks (keys : List ℕ) : List Task :=
  (groupBy (fun p => p.1 / g.layout.rowsPerShard) keys.zipIdx).insertionSort
    fun a b => a.1 ≤ b.1

/-- The groups, divided among the jobs. -/
def jobs (keys : List ℕ) (threads : ℕ) : List (List Task) :=
  let n := (g.tasks keys).length
  chunks ((n + jobCount threads n - 1) / jobCount threads n) (g.tasks keys)

/-- The pairs of a task in the order in which they are served. -/
def sortedPairs (t : Task) : List (ℕ × ℕ) := t.2.insertionSort pairLe

/-- The pairs of a job in the order in which they are served. -/
def jobPairs (job : List Task) : List (ℕ × ℕ) := job.flatMap sortedPairs

/-- The rows served for one task, each with the position of its key. -/
def served (t : Task) : List (ℕ × Bytes) :=
  g.servePairs t.1 (g.files.getD t.1 []) g.freshPage 0 (sortedPairs t)

/-- The rows of a job, one after another. -/
def jobRows (job : List Task) : Bytes := (job.flatMap g.served).flatMap Prod.snd

/-- What a job pushes: the positions of its keys and their rows. -/
def jobResult (job : List Task) : JobResult := ((jobPairs job).map Prod.snd, g.jobRows job)

/-- The row of a key in the contents of its shard file. -/
def fileRow (f : Bytes) (k : ℕ) : Bytes :=
  slot g.layout.rowBytes f (k % g.layout.rowsPerShard)

/-- A row that lies in the file has its full width. -/
theorem length_fileRow {g : BadgeGather} {f : Bytes} {k : ℕ}
    (h : g.byteOff k + g.layout.rowBytes ≤ f.length) :
    (g.fileRow f k).length = g.layout.rowBytes :=
  length_slot (by rw [Nat.succ_mul]; exact h)

/-- The stored row of a key: its bytes in the file of its shard. -/
def storedRow (k : ℕ) : Bytes :=
  g.fileRow (g.files.getD (k / g.layout.rowsPerShard) []) k

section Regrouping

variable {g} {keys : List ℕ}

/-- In a layout with rows in its shards and its badges, grouping the keys does not panic, and gives
the tasks. -/
theorem groupKeys_eq (hrows : 0 < g.layout.rowsPerShard) (hbadge : 0 < g.layout.badgeRows)
    (keys : List ℕ) : g.groupKeys keys = .ok (g.tasks keys) := by
  have hfold : ∀ (ps : List (ℕ × ℕ)) (m : List Task),
      (ps.foldlM (fun groups p => do
        let place ← g.layout.locate p.1
        pure (push groups place.1 p)) m : Outcome IoError _) =
        .ok (ps.foldl (fun m p => push m (p.1 / g.layout.rowsPerShard) p) m) := by
    intro ps
    induction ps with
    | nil => intro m; rfl
    | cons p ps ih =>
      intro m
      rw [List.foldlM_cons, Layout.locate_eq_ok hrows hbadge]
      exact ih _
  exact congrArg (· >>= fun groups => pure (groups.insertionSort fun a b => a.1 ≤ b.1))
    (hfold keys.zipIdx [])

/-- The tasks have every key of the request once, with its place. -/
theorem tasks_perm (g : BadgeGather) (keys : List ℕ) :
    ((g.tasks keys).flatMap Prod.snd).Perm keys.zipIdx :=
  ((List.perm_insertionSort _ _).flatMap_right _).trans (groupBy_perm _ _)

/-- A task has keys, and only those of its shard. -/
theorem mem_tasks {t : Task} (ht : t ∈ g.tasks keys) :
    t.2 ≠ [] ∧ ∀ p ∈ t.2, p ∈ keys.zipIdx ∧ p.1 / g.layout.rowsPerShard = t.1 := by
  have hmem := (List.perm_insertionSort _ _).mem_iff.mp ht
  refine ⟨ne_nil_of_mem_groupBy hmem, fun p hp => ⟨?_, key_of_mem_groupBy hmem hp⟩⟩
  exact (tasks_perm g keys).mem_iff.mp (List.mem_flatMap.mpr ⟨t, ht, hp⟩)

/-- The pairs of a shard's task are the keys of the shard with their positions. -/
theorem exists_task (g : BadgeGather) {k i : ℕ} (hk : keys[i]? = some k) :
    ∃ t ∈ g.tasks keys, t.1 = k / g.layout.rowsPerShard ∧ (k, i) ∈ t.2 := by
  have hzip : (k, i) ∈ keys.zipIdx := List.mem_zipIdx_iff_getElem?.mpr hk
  have hmem := (tasks_perm g keys).mem_iff.mpr hzip
  obtain ⟨t, ht, hp⟩ := List.mem_flatMap.mp hmem
  exact ⟨t, ht, ((mem_tasks ht).2 _ hp).2.symm, hp⟩

/-- A request with a key has a task. -/
theorem tasks_ne_nil (hne : keys ≠ []) : g.tasks keys ≠ [] := by
  intro hnil
  have hgroups : groupBy (fun p => p.1 / g.layout.rowsPerShard) keys.zipIdx ≠ [] :=
    groupBy_ne_nil (by simpa using hne)
  have hlen := congrArg List.length hnil
  rw [tasks, List.length_insertionSort] at hlen
  exact hgroups (List.length_eq_zero_iff.mp hlen)

/-- A request with keys is divided among at least one job of at least one task. -/
theorem chunk_pos {threads n : ℕ} (hn : 0 < n) :
    0 < jobCount threads n ∧ 0 < (n + jobCount threads n - 1) / jobCount threads n := by
  have hcount : 0 < jobCount threads n := by simp only [jobCount]; omega
  refine ⟨hcount, Nat.div_pos ?_ hcount⟩
  simp only [jobCount]
  omega

/-- The jobs of a request with a key (`hne`) together have every task once, for any number of
threads. -/
theorem flatten_jobs (hne : keys ≠ []) (threads : ℕ) :
    (g.jobs keys threads).flatten = g.tasks keys :=
  flatten_chunks (chunk_pos (List.length_pos_iff.mpr (tasks_ne_nil hne))).2 _

/-- The tasks of a job are tasks of the request. -/
theorem mem_tasks_of_mem_jobs (hne : keys ≠ []) {threads : ℕ} {job : List Task} {t : Task}
    (hjob : job ∈ g.jobs keys threads) (ht : t ∈ job) : t ∈ g.tasks keys := by
  rw [← flatten_jobs hne threads]
  exact List.mem_flatten.mpr ⟨job, hjob, ht⟩

/-- Sorting a task neither adds nor drops a pair. -/
theorem sortedPairs_perm (t : Task) : (sortedPairs t).Perm t.2 := List.perm_insertionSort _ _

/-- The jobs together serve every key of the request once. -/
theorem jobPairs_perm (hne : keys ≠ []) (threads : ℕ) :
    ((g.jobs keys threads).flatMap jobPairs).Perm keys.zipIdx := by
  have hflat : (g.jobs keys threads).flatMap jobPairs = (g.tasks keys).flatMap sortedPairs := by
    rw [← flatten_jobs hne threads, List.flatMap_def, List.flatMap_def, List.map_flatten,
      List.flatten_flatten, List.map_map]
    rfl
  rw [hflat]
  refine List.Perm.trans ?_ (tasks_perm g keys)
  exact List.Perm.flatMap_left _ fun t _ => sortedPairs_perm t

/-- A pair that a job serves is a key of the request with its position. -/
theorem mem_zipIdx_of_mem_jobPairs (hne : keys ≠ []) {threads : ℕ} {job : List Task}
    (hjob : job ∈ g.jobs keys threads) {p : ℕ × ℕ} (hp : p ∈ jobPairs job) :
    keys[p.2]? = some p.1 :=
  List.mem_zipIdx_iff_getElem?.mp
    ((jobPairs_perm hne threads).mem_iff.mp (List.mem_flatMap.mpr ⟨job, hjob, hp⟩))

/-- Every shard that a task of a request in range is for has its file. -/
theorem shard_lt_of_mem_tasks (hkeys : ∀ k ∈ keys, g.layout.InRange k) {t : Task}
    (ht : t ∈ g.tasks keys) : t.1 < g.files.length := by
  obtain ⟨hne, hmem⟩ := mem_tasks ht
  obtain ⟨p, hp⟩ := List.exists_mem_of_ne_nil _ hne
  obtain ⟨hzip, hshard⟩ := hmem p hp
  have hkey : p.1 ∈ keys := List.mem_of_getElem? (List.mem_zipIdx_iff_getElem?.mp hzip)
  rw [g.files_length, ← hshard]
  exact (hkeys _ hkey).shard_lt

end Regrouping

section Serving

variable {g} {shard : ℕ} {f : Bytes} {c : PageBuf}

/-- A page read stores no more bytes than were asked for and exist. -/
theorem pageGot_le (shard : ℕ) (f : Bytes) (n k : ℕ) : g.pageGot shard f n k ≤
    min (PAGE + g.layout.rowBytes) (f.length - pageId (g.byteOff k)) := by
  unfold pageGot
  split
  next got h => exact g.backend.readAt_le h
  next => exact Nat.zero_le _

/-- Loading a page keeps the length of the page buffer. -/
theorem length_page_loadPage (hc : c.page.length = PAGE + 2 * g.layout.rowBytes) (n k : ℕ) :
    (g.loadPage shard f c n k).page.length = PAGE + 2 * g.layout.rowBytes := by
  have hgot := pageGot_le (g := g) shard f n k
  unfold loadPage
  split_ifs
  · rw [ReadReq.length_fill _ (by simp only [ReadReq.available, pageReq]; omega) (by omega), hc]
  · exact hc

/-- After loading, the buffer is of the page of the key. -/
theorem lastPage_loadPage (n k : ℕ) :
    (g.loadPage shard f c n k).lastPage = some (pageId (g.byteOff k)) := by
  unfold loadPage
  split_ifs with hpage
  · rfl
  · exact not_not.mp hpage

/-- A page starts at or before the offsets in it. -/
theorem pageId_le (off : ℕ) : pageId off ≤ off := Nat.div_mul_le_self _ _

/-- A row that is taken out of a buffer with room for a page and two rows (`hc`) has `rowBytes`
bytes. -/
theorem length_takeRow (hc : c.page.length = PAGE + 2 * g.layout.rowBytes) (n k : ℕ) :
    (g.takeRow shard f c n k).length = g.layout.rowBytes := by
  simp only [takeRow]
  split_ifs with hin
  · simp only [List.length_take, List.length_drop]
    omega
  · have hle := g.backend.readExactAt_le (g.rowReq shard f n k)
    have hlen : (g.rowReq shard f n k).len = g.layout.rowBytes := rfl
    rw [ReadReq.length_fill _ (by omega) (by rw [List.length_replicate]; omega),
      List.length_replicate]

/-- The rows of a shard come with the positions of their keys. -/
@[simp]
theorem map_fst_servePairs (ps : List (ℕ × ℕ)) (n : ℕ) :
    (g.servePairs shard f c n ps).map Prod.fst = ps.map Prod.snd := by
  induction ps generalizing c n with
  | nil => rfl
  | cons p ps ih => simp only [servePairs, List.map_cons, ih]

/-- Every row that is served has the bytes of one row, if the buffer has its length. -/
private theorem length_of_mem_servePairs (hc : c.page.length = PAGE + 2 * g.layout.rowBytes)
    {ps : List (ℕ × ℕ)} {n : ℕ} {q : ℕ × Bytes} (hq : q ∈ g.servePairs shard f c n ps) :
    q.2.length = g.layout.rowBytes := by
  induction ps generalizing c n with
  | nil => cases hq
  | cons p ps ih =>
    rcases List.mem_cons.mp hq with rfl | hq
    · exact length_takeRow (length_page_loadPage hc n p.1) n p.1
    · exact ih (length_page_loadPage hc n p.1) hq

/-- The buffer of a task has room for a page and two rows. -/
theorem length_page_freshPage (g : BadgeGather) :
    g.freshPage.page.length = PAGE + 2 * g.layout.rowBytes := by
  simp [freshPage]

/-- The positions of the rows of a task. -/
theorem map_fst_served (t : Task) : (g.served t).map Prod.fst = (sortedPairs t).map Prod.snd :=
  map_fst_servePairs _ _

/-- The positions of the rows of a job. -/
theorem map_fst_flatMap_served (job : List Task) :
    (job.flatMap g.served).map Prod.fst = (jobPairs job).map Prod.snd := by
  simp only [jobPairs, List.map_flatMap, map_fst_served]

/-- Every row of a task has `rowBytes` bytes. -/
theorem length_of_mem_served {t : Task} {q : ℕ × Bytes} (hq : q ∈ g.served t) :
    q.2.length = g.layout.rowBytes :=
  length_of_mem_servePairs (length_page_freshPage g) hq

/-- The rows of a job are as many as its keys. -/
theorem length_jobRows (job : List Task) :
    (g.jobRows job).length = (jobPairs job).length * g.layout.rowBytes := by
  have hcount : (job.flatMap g.served).length = (jobPairs job).length := by
    simpa using congrArg List.length (map_fst_flatMap_served (g := g) job)
  rw [jobRows, List.flatMap_def, length_flatten (w := g.layout.rowBytes), List.length_map, hcount]
  intro row hrow
  obtain ⟨q, hq, rfl⟩ := List.mem_map.mp hrow
  obtain ⟨t, -, hq⟩ := List.mem_flatMap.mp hq
  exact length_of_mem_served hq

end Serving

section Jobs

variable {g} {keys : List ℕ}

/-- A task of a shard that is there puts its places and its rows behind those of the job so far. -/
private theorem runTask_eq {t : Task} (ht : t.1 < g.files.length) (acc : JobResult) :
    g.runTask acc t =
      .ok (acc.1 ++ (sortedPairs t).map Prod.snd, acc.2 ++ (g.served t).flatMap Prod.snd) := by
  have hfile : g.files.getD t.1 [] = g.files[t.1] := by simp [List.getD, ht]
  have hserved : g.served t =
      g.servePairs t.1 g.files[t.1] g.freshPage 0 (sortedPairs t) := by rw [served, hfile]
  rw [← map_fst_served, hserved]
  simp only [runTask, Outcome.index, List.getElem?_eq_getElem ht]
  rfl

/-- A job on existing shards pushes the positions of its keys and their rows. -/
private theorem runJob_eq {job : List Task} (hjob : ∀ t ∈ job, t.1 < g.files.length) :
    g.runJob job = .ok (g.jobResult job) := by
  have hfold : ∀ (job : List Task), (∀ t ∈ job, t.1 < g.files.length) → ∀ acc : JobResult,
      job.foldlM g.runTask acc =
        .ok (acc.1 ++ (jobPairs job).map Prod.snd, acc.2 ++ g.jobRows job) := by
    intro job
    induction job with
    | nil =>
      intro _ acc
      simp [jobPairs, jobRows, pure, Except.pure]
    | cons t job ih =>
      intro hjob acc
      rw [List.foldlM_cons, runTask_eq (hjob t (by simp))]
      have hrest := ih (fun u hu => hjob u (by simp [hu]))
        (acc.1 ++ (sortedPairs t).map Prod.snd, acc.2 ++ (g.served t).flatMap Prod.snd)
      simp only [jobPairs, jobRows, List.flatMap_cons, List.map_append, List.flatMap_append,
        List.append_assoc] at hrest ⊢
      exact hrest
  have hrun := hfold job hjob ([], [])
  simpa [runJob, jobResult] using hrun

/-- When every job returns, the pool hands back what they pushed, in the order they finished. -/
theorem scopeRun_map_ok {ε α β : Type} (sched : Schedule β) {jobs : List α}
    {run : α → Outcome ε β} {result : α → β} (h : ∀ a ∈ jobs, run a = .ok (result a)) :
    scopeRun sched (jobs.map run) = .ok (sched.finish (jobs.map result)) := by
  have hmap : jobs.map run = (jobs.map result).map Except.ok := by
    rw [List.map_map]
    exact List.map_congr_left h
  have hpush : ((jobs.map result).map (Except.ok (ε := Fault ε))).filterMap Except.toOption =
      jobs.map result := by
    rw [List.filterMap_map]
    exact List.filterMap_some
  rw [scopeRun, hmap, hpush, if_neg]
  rintro ⟨-, hany⟩
  obtain ⟨j, hj, hnone⟩ := List.any_eq_true.mp hany
  obtain ⟨a, -, rfl⟩ := List.mem_map.mp hj
  simp [Except.toOption] at hnone

/-- The pieces that a job result puts into the output: each position with its slot of the rows. -/
def resultPieces (w : ℕ) (r : JobResult) : List (ℕ × Bytes) :=
  r.1.zipIdx.map fun p => (p.1, slot w r.2 p.2)

/-- The pieces of a result go to the places that the result names. -/
@[simp]
theorem map_fst_resultPieces (w : ℕ) (r : JobResult) : (resultPieces w r).map Prod.fst = r.1 := by
  rw [resultPieces, List.map_map]
  exact List.zipIdx_map_fst _ _

/-- The pieces of a job result whose rows and positions fit are slots of the output. -/
theorem fits_of_mem_resultPieces {w n : ℕ} {r : JobResult} (hidx : ∀ i ∈ r.1, i < n)
    (hrows : r.1.length * w ≤ r.2.length) {p : ℕ × Bytes} (hp : p ∈ resultPieces w r) :
    p.1 < n ∧ p.2.length = w := by
  obtain ⟨q, hq, rfl⟩ := List.mem_map.mp hp
  have hget := List.mem_zipIdx_iff_getElem?.mp hq
  refine ⟨hidx _ (List.mem_of_getElem? hget), length_slot ?_⟩
  exact (Nat.mul_le_mul_right w (List.getElem?_eq_some_iff.mp hget).1).trans hrows

/-- Copying a job result whose rows and positions fit scatters its pieces. -/
private theorem scatterResult_eq {out : Bytes} {n : ℕ} {r : JobResult}
    (hout : out.length = n * g.layout.width) (hidx : ∀ i ∈ r.1, i < n)
    (hrows : r.1.length * g.layout.width ≤ r.2.length) :
    g.scatterResult out r = .ok (scatter g.layout.width out (resultPieces g.layout.width r)) := by
  have hfold : ∀ (ps : List (ℕ × ℕ)) (out : Bytes), out.length = n * g.layout.width →
      (∀ p ∈ ps, p.1 < n ∧ p.2 < r.1.length) →
      (ps.foldlM (fun out p => do
        let w := g.layout.width
        let row ← sliceRange r.2 (p.2 * w) ((p.2 + 1) * w)
        copyFromSlice out (p.1 * w) ((p.1 + 1) * w) row) out : Outcome IoError Bytes) =
        .ok (scatter g.layout.width out (ps.map fun p => (p.1, slot g.layout.width r.2 p.2))) := by
    intro ps
    induction ps with
    | nil => intro out _ _; rfl
    | cons p ps ih =>
      intro out hout hps
      obtain ⟨hp1, hp2⟩ := hps p (by simp)
      have hsrc : (p.2 + 1) * g.layout.width ≤ r.2.length :=
        (Nat.mul_le_mul_right _ hp2).trans hrows
      have hdst : (p.1 + 1) * g.layout.width ≤ n * g.layout.width := Nat.mul_le_mul_right _ hp1
      have hwide := length_slot hsrc
      have hmul1 : (p.1 + 1) * g.layout.width = p.1 * g.layout.width + g.layout.width :=
        Nat.succ_mul _ _
      have hmul2 : (p.2 + 1) * g.layout.width = p.2 * g.layout.width + g.layout.width :=
        Nat.succ_mul _ _
      -- both ranges lie in their buffers, so neither slice panics
      have hslice : sliceRange (ε := IoError) r.2 (p.2 * g.layout.width)
          ((p.2 + 1) * g.layout.width) = .ok (slot g.layout.width r.2 p.2) := by
        rw [sliceRange, if_pos (by omega), slot]
        congr 3
        omega
      have hcopy : copyFromSlice (ε := IoError) out (p.1 * g.layout.width)
          ((p.1 + 1) * g.layout.width) (slot g.layout.width r.2 p.2) =
          .ok (store out (p.1 * g.layout.width) (slot g.layout.width r.2 p.2)) := by
        rw [copyFromSlice, if_pos (by omega)]
      have hrest := ih (store out (p.1 * g.layout.width) (slot g.layout.width r.2 p.2))
        (by rw [length_store (by omega), hout]) fun q hq => hps q (by simp [hq])
      rw [List.foldlM_cons]
      simp only [hslice]
      show (copyFromSlice out (p.1 * g.layout.width) ((p.1 + 1) * g.layout.width)
        (slot g.layout.width r.2 p.2) >>= _) = _
      rw [hcopy]
      exact hrest
  refine hfold r.1.zipIdx out hout fun p hp => ?_
  have hget := List.mem_zipIdx_iff_getElem?.mp hp
  exact ⟨hidx _ (List.mem_of_getElem? hget), (List.getElem?_eq_some_iff.mp hget).1⟩

/-- Copying a list of job results that fit scatters all their pieces. -/
theorem foldlM_scatterResult_eq {n : ℕ} {results : List JobResult}
    (hfit : ∀ r ∈ results, (∀ i ∈ r.1, i < n) ∧ r.1.length * g.layout.width ≤ r.2.length)
    {out : Bytes} (hout : out.length = n * g.layout.width) :
    results.foldlM g.scatterResult out =
      .ok (scatter g.layout.width out (results.flatMap (resultPieces g.layout.width))) := by
  induction results generalizing out with
  | nil => rfl
  | cons r rs ih =>
    obtain ⟨hidx, hrows⟩ := hfit r (by simp)
    rw [List.foldlM_cons, scatterResult_eq hout hidx hrows, List.flatMap_cons, scatter_append]
    refine ih (fun q hq => hfit q (by simp [hq])) (length_scatter hout fun p hp => ?_)
    exact fits_of_mem_resultPieces hidx hrows hp

/-- A gather of rows in range copies the results of its jobs one after another, in the order in
which they finish. -/
theorem gatherPp_eq_foldlM (sched : Schedule JobResult) (hne : keys ≠ [])
    (hkeys : ∀ k ∈ keys, g.layout.InRange k) (hbadge : 0 < g.layout.badgeRows) (out : Bytes)
    (threads : ℕ) :
    g.gatherPp sched keys out threads =
      (sched.finish ((g.jobs keys threads).map g.jobResult)).foldlM g.scatterResult out := by
  obtain ⟨k₀, hk₀⟩ := List.exists_mem_of_ne_nil keys hne
  have hcount : 0 < jobCount threads (g.tasks keys).length :=
    (chunk_pos (List.length_pos_iff.mpr (tasks_ne_nil hne))).1
  have hrun : ∀ job ∈ g.jobs keys threads, g.runJob job = .ok (g.jobResult job) :=
    fun job hjob => runJob_eq fun t ht =>
      shard_lt_of_mem_tasks hkeys (mem_tasks_of_mem_jobs hne hjob ht)
  have hscope : scopeRun sched ((g.jobs keys threads).map g.runJob) =
      .ok (sched.finish ((g.jobs keys threads).map g.jobResult)) := scopeRun_map_ok sched hrun
  rw [jobs] at hscope
  rw [gatherPp, groupKeys_eq (hkeys k₀ hk₀).rowsPerShard_pos hbadge]
  simp only [bind, Except.bind, if_neg hcount.ne']
  rw [hscope]
  rfl

/-- A gather that returns, while its caller sees every panic, was asked for rows of the table only:
the job of a key out of range panics. -/
theorem inRange_of_gatherPp_ok {sched : Schedule JobResult} (hseen : sched.panicSeen = true)
    {out out' : Bytes} {threads : ℕ} (h : g.gatherPp sched keys out threads = .ok out') :
    ∀ k ∈ keys, g.layout.InRange k := by
  intro k hk
  have hne : keys ≠ [] := List.ne_nil_of_mem hk
  obtain ⟨tasks, hgroup, h⟩ := Except.bind_eq_ok_iff.mp h
  -- a table without rows fails at its first key
  have hpos : 0 < g.layout.rowsPerShard ∧ 0 < g.layout.badgeRows := by
    by_contra hzero
    have hlocate : ∀ k : ℕ, (g.layout.locate k : Outcome IoError _) = .error .panic := fun k => by
      rw [Layout.locate, if_pos (by omega)]
    obtain ⟨key, rest, rfl⟩ := List.exists_cons_of_ne_nil hne
    rw [groupKeys, List.zipIdx_cons, List.foldlM_cons, hlocate] at hgroup
    cases hgroup
  rw [groupKeys_eq hpos.1 hpos.2] at hgroup
  cases hgroup
  -- no job panicked
  dsimp only at h
  split_ifs at h with hzero
  · cases h
  obtain ⟨results, hscope, -⟩ := Except.bind_eq_ok_iff.mp h
  have hjobs : ∀ job ∈ g.jobs keys threads, ∃ result, g.runJob job = .ok result := by
    intro job hjob
    cases hrun : g.runJob job with
    | ok result => exact ⟨result, rfl⟩
    | error fault =>
      have hany : ((g.jobs keys threads).map g.runJob).any (fun j => j.toOption.isNone) = true :=
        List.any_eq_true.mpr ⟨_, List.mem_map_of_mem hjob, by rw [hrun]; rfl⟩
      rw [scopeRun, if_pos ⟨hseen, hany⟩] at hscope
      cases hscope
  -- in particular not the one that has the task of the key
  obtain ⟨i, hi⟩ := List.mem_iff_getElem?.mp hk
  obtain ⟨t, ht, hshard, -⟩ := exists_task g hi
  rw [← flatten_jobs hne threads] at ht
  obtain ⟨job, hjob, htjob⟩ := List.mem_flatten.mp ht
  obtain ⟨result, hrun⟩ := hjobs job hjob
  obtain ⟨acc, acc', -, htask⟩ :=
    (Except.foldlM_eq_ok (P := fun _ => True) (fun _ _ _ _ _ => trivial) trivial hrun).2 t htjob
  obtain ⟨f, hf, -⟩ := Except.bind_eq_ok_iff.mp htask
  have hlt : t.1 < g.layout.shards := by
    rw [← g.files_length]
    by_contra hge
    rw [Outcome.index, List.getElem?_eq_none (by omega)] at hf
    cases hf
  rw [hshard, Nat.div_lt_iff_lt_mul hpos.1] at hlt
  exact hlt

/-- A gather of rows in range succeeds. The slot of the output that belongs to the `j`-th key of a
job is the `j`-th slot of that job's rows, in whatever order the jobs finish. -/
theorem gatherPp_eq_ok (sched : Schedule JobResult) (hne : keys ≠ [])
    (hkeys : ∀ k ∈ keys, g.layout.InRange k) (hbadge : 0 < g.layout.badgeRows)
    (hwidth : g.layout.width ≤ g.layout.rowBytes) {out : Bytes}
    (hout : out.length = keys.length * g.layout.width) (threads : ℕ) :
    ∃ out', g.gatherPp sched keys out threads = .ok out' ∧
      out'.length = keys.length * g.layout.width ∧
      ∀ job ∈ g.jobs keys threads, ∀ j k i, (jobPairs job)[j]? = some (k, i) →
        slot g.layout.width out' i = slot g.layout.width (g.jobRows job) j := by
  -- what the jobs push fits the output
  have hperm : (sched.finish ((g.jobs keys threads).map g.jobResult)).Perm
      ((g.jobs keys threads).map g.jobResult) := sched.finish_perm _
  have hfit : ∀ r ∈ sched.finish ((g.jobs keys threads).map g.jobResult),
      (∀ i ∈ r.1, i < keys.length) ∧ r.1.length * g.layout.width ≤ r.2.length := by
    intro r hr
    obtain ⟨job, hjob, rfl⟩ := List.mem_map.mp (hperm.mem_iff.mp hr)
    refine ⟨fun i hi => ?_, ?_⟩
    · obtain ⟨p, hp, rfl⟩ := List.mem_map.mp hi
      exact (List.getElem?_eq_some_iff.mp (mem_zipIdx_of_mem_jobPairs hne hjob hp)).1
    · simp only [jobResult, List.length_map, length_jobRows]
      exact Nat.mul_le_mul_left _ hwidth
  -- no position is written twice
  have hnodup : ((sched.finish ((g.jobs keys threads).map g.jobResult)).flatMap
      (resultPieces g.layout.width)).map Prod.fst |>.Nodup := by
    have hpos : ((g.jobs keys threads).map g.jobResult).flatMap Prod.fst =
        ((g.jobs keys threads).flatMap jobPairs).map Prod.snd := by
      rw [List.flatMap_map, List.map_flatMap]
      rfl
    rw [List.map_flatMap]
    simp only [map_fst_resultPieces]
    refine ((hperm.flatMap_right _).nodup_iff).mpr ?_
    rw [hpos]
    refine (((jobPairs_perm hne threads).map _).nodup_iff).mpr ?_
    rw [List.zipIdx_map_snd]
    exact List.nodup_range'
  refine ⟨scatter g.layout.width out ((sched.finish ((g.jobs keys threads).map g.jobResult)).flatMap
    (resultPieces g.layout.width)), ?_, ?_, ?_⟩
  · rw [gatherPp_eq_foldlM sched hne hkeys hbadge]
    exact foldlM_scatterResult_eq hfit hout
  · refine length_scatter hout fun p hp => ?_
    obtain ⟨r, hr, hp⟩ := List.mem_flatMap.mp hp
    exact fits_of_mem_resultPieces (hfit r hr).1 (hfit r hr).2 hp
  · intro job hjob j k i hj
    have hr : g.jobResult job ∈ sched.finish ((g.jobs keys threads).map g.jobResult) :=
      hperm.mem_iff.mpr (List.mem_map_of_mem hjob)
    refine slot_scatter hout (fun p hp => ?_) hnodup ?_
    · obtain ⟨r, hr, hp⟩ := List.mem_flatMap.mp hp
      exact fits_of_mem_resultPieces (hfit r hr).1 (hfit r hr).2 hp
    · refine List.mem_flatMap.mpr ⟨_, hr, List.mem_map.mpr ⟨(i, j), ?_, rfl⟩⟩
      rw [List.mem_zipIdx_iff_getElem?]
      simp [jobResult, hj]

/-- A gather of rows in range, of `width` bytes each, succeeds and puts every row that is served
for a task into the slot of its key. -/
theorem gatherPp_served (sched : Schedule JobResult) (hne : keys ≠ [])
    (hkeys : ∀ k ∈ keys, g.layout.InRange k) (hbadge : 0 < g.layout.badgeRows)
    (hwidth : g.layout.width = g.layout.rowBytes) {out : Bytes}
    (hout : out.length = keys.length * g.layout.width) (threads : ℕ) :
    ∃ out', g.gatherPp sched keys out threads = .ok out' ∧
      out'.length = keys.length * g.layout.width ∧
      ∀ t ∈ g.tasks keys, ∀ q ∈ g.served t, slot g.layout.width out' q.1 = q.2 := by
  obtain ⟨out', hok, hlen, hslots⟩ :=
    gatherPp_eq_ok sched hne hkeys hbadge (Nat.le_of_eq hwidth) hout threads
  refine ⟨out', hok, hlen, fun t ht q hq => ?_⟩
  rw [← flatten_jobs hne threads] at ht
  obtain ⟨job, hjob, ht⟩ := List.mem_flatten.mp ht
  obtain ⟨j, hj⟩ := List.mem_iff_getElem?.mp (List.mem_flatMap.mpr ⟨t, ht, hq⟩)
  -- the rows of the job are the pieces of `jobRows`, and their positions those of its pairs
  have hpairs : (jobPairs job)[j]?.map Prod.snd = some q.1 := by
    rw [← List.getElem?_map, ← map_fst_flatMap_served (g := g) job, List.getElem?_map, hj]
    rfl
  obtain ⟨p, hp, hpq⟩ := Option.map_eq_some_iff.mp hpairs
  rw [← hpq, hslots job hjob j p.1 p.2 hp, jobRows, List.flatMap_def]
  refine slot_flatten (fun row hrow => ?_) (by rw [List.getElem?_map, hj]; rfl)
  obtain ⟨r, hr, rfl⟩ := List.mem_map.mp hrow
  obtain ⟨u, -, hr⟩ := List.mem_flatMap.mp hr
  rw [hwidth]
  exact length_of_mem_served hr

end Jobs

end BadgeGather

end EngramDB
