import EngramDB.Io.Batch.Machine
import EngramDB.Io.Batch.Structure

/-!
# When the production gather does not panic

A gather on a 64-bit machine panics unless the request has keys, all of shards that exist, there is
memory for the page buffers and the rows, and a row has at least `width` bytes (`Fits`):

* `runJob64_eq`: a job on existing shards with page buffers returns its rows, or panics for want of
  memory;
* `bounds_of_scatterResult64`: rows that are copied fit, in the true product of position and width;
* `gatherPp64_noPanic_iff`: no schedule makes the gather panic iff the request fits;
* `gatherPp64_eq_gatherPp`: then it returns what `gatherPp` returns, if no offset of a row wraps.
-/

namespace EngramDB

open SlotBuffer Chunking Grouping

namespace BadgeGather

/-! ### Serving a shard -/

section Serving

variable (a : Allocator) (g : BadgeGather)

/-- The page buffer after the page of a key was asked for. -/
def nextPage64 (shard : ℕ) (f : Bytes) (c : PageBuf) (n k : ℕ) : PageBuf :=
  if c.lastPage ≠ some (pageId (g.byteOff64 k)) then
    { lastPage := some (pageId (g.byteOff64 k))
      page := (g.pageReq64 shard f n k).fill c.page (g.pageGot64 shard f n k) }
  else c

/-- The row of a key. -/
def rowOf64 (shard : ℕ) (f : Bytes) (c : PageBuf) (n k : ℕ) : Bytes :=
  let inPage := g.byteOff64 k - pageId (g.byteOff64 k)
  if inPage + g.layout.rowBytes ≤ PAGE then (c.page.drop inPage).take g.layout.rowBytes
  else
    let r := g.rowReq64 shard f n k
    r.fill (List.replicate g.layout.rowBytes 0) (g.backend.readExactAt r).1

/-- The rows of the keys of a shard. -/
def rowsOf64 (shard : ℕ) (f : Bytes) : PageBuf → ℕ → List (ℕ × ℕ) → Bytes
  | _, _, [] => []
  | c, n, p :: ps =>
    let c' := g.nextPage64 shard f c n p.1
    g.rowOf64 shard f c' n p.1 ++ rowsOf64 shard f c' (n + 1) ps

/-- The rows of a task. -/
def taskRows64 (t : Task) : Bytes :=
  g.rowsOf64 t.1 (g.files.getD t.1 []) g.freshPage 0 (sortedPairs t)

/-- What a job pushes. -/
def jobResult64 (job : List Task) : JobResult :=
  ((jobPairs job).map Prod.snd, job.flatMap g.taskRows64)

/-- There is memory for a page buffer. -/
def PageFits : Prop := a.allocates (PAGE + 2 * g.layout.rowBytes)

variable {a g} {shard : ℕ} {f : Bytes} {c : PageBuf}

/-- A page buffer that fits is less than `2 ^ 63` bytes long. -/
theorem PageFits.lt (h : PageFits a g) : PAGE + 2 * g.layout.rowBytes < 2 ^ 63 :=
  a.lt_of_allocates h

/-- If a buffer of the wrapped size is there and has room for a page read, nothing has wrapped. -/
private theorem pageFits_of_wordAdd (hrb : g.layout.rowBytes < 2 ^ 64)
    (halloc : a.allocates (wordAdd PAGE (wordMul 2 g.layout.rowBytes)))
    (hwant : wordAdd PAGE g.layout.rowBytes ≤ wordAdd PAGE (wordMul 2 g.layout.rowBytes)) :
    PageFits a g := by
  have hlt := a.lt_of_allocates halloc
  simp only [wordAdd, wordMul, PAGE] at hwant hlt halloc
  have htrue : (4096 + 2 * g.layout.rowBytes % 2 ^ 64) % 2 ^ 64 = PAGE + 2 * g.layout.rowBytes := by
    rw [PAGE]
    omega
  rw [PageFits, ← htrue]
  exact halloc

/-- A page read gets at most a page and a row, and at most what the file has from there on. -/
private theorem pageGot64_le (shard : ℕ) (f : Bytes) (n k : ℕ) : g.pageGot64 shard f n k ≤
    min (wordAdd PAGE g.layout.rowBytes) (f.length - pageId (g.byteOff64 k)) := by
  unfold pageGot64
  split
  next got h => exact g.backend.readAt_le h
  next => exact Nat.zero_le _

/-- The buffer keeps its length when the next page is loaded, if pages fit into memory. -/
theorem length_nextPage64 (shard : ℕ) (f : Bytes) (hfits : PageFits a g)
    (hc : c.page.length = PAGE + 2 * g.layout.rowBytes) (n k : ℕ) :
    (g.nextPage64 shard f c n k).page.length = PAGE + 2 * g.layout.rowBytes := by
  have hlt := hfits.lt
  have hgot := pageGot64_le (g := g) shard f n k
  rw [wordAdd_eq (by omega)] at hgot
  unfold nextPage64
  split_ifs
  · rw [ReadReq.length_fill _ (by simp only [ReadReq.available, pageReq64]; omega) (by omega), hc]
  · exact hc

/-- Loading a page does not panic, if pages fit into memory and the buffer has its length. -/
private theorem loadPage64_eq_ok (hfits : PageFits a g)
    (hc : c.page.length = PAGE + 2 * g.layout.rowBytes) (n k : ℕ) :
    g.loadPage64 shard f c n k = .ok (g.nextPage64 shard f c n k) := by
  have hlt := hfits.lt
  unfold loadPage64 nextPage64
  split_ifs with hpage hwant
  · rfl
  · rw [wordAdd_eq (by omega), hc] at hwant
    omega
  · rfl

/-- An offset is less than a page behind the start of its page. -/
private theorem inPage_lt (off : ℕ) : off - pageId off < PAGE := by
  have hmod := Nat.mod_lt off (by decide : 0 < PAGE)
  have hdiv := Nat.div_add_mod' off PAGE
  rw [pageId]
  omega

/-- Taking a row out of the buffer does not panic, if pages fit into memory and the buffer has its
length. -/
private theorem takeRow64_eq_ok (hfits : PageFits a g)
    (hc : c.page.length = PAGE + 2 * g.layout.rowBytes) (n k : ℕ) :
    g.takeRow64 a shard f c n k = .ok (g.rowOf64 shard f c n k) := by
  have hlt := hfits.lt
  have hin := inPage_lt (g.byteOff64 k)
  have hadd : wordAdd (g.byteOff64 k - pageId (g.byteOff64 k)) g.layout.rowBytes =
      g.byteOff64 k - pageId (g.byteOff64 k) + g.layout.rowBytes :=
    wordAdd_eq (by simp only [PAGE] at hin hlt; omega)
  simp only [takeRow64, rowOf64, hadd]
  split_ifs with hrow
  · rw [sliceRange, if_pos (by omega), Nat.add_sub_cancel_left]
  · rw [a.zeros_eq_ok (a.allocates_of_le (by omega) hfits)]
    rfl

/-- The row that is taken has the bytes of one row. -/
theorem length_rowOf64 (shard : ℕ) (f : Bytes)
    (hc : c.page.length = PAGE + 2 * g.layout.rowBytes) (n k : ℕ) :
    (g.rowOf64 shard f c n k).length = g.layout.rowBytes := by
  simp only [rowOf64]
  split_ifs with hin
  · simp only [List.length_take, List.length_drop]
    omega
  · have hle := g.backend.readExactAt_le (g.rowReq64 shard f n k)
    have hlen : (g.rowReq64 shard f n k).len = g.layout.rowBytes := rfl
    rw [ReadReq.length_fill _ (by omega) (by rw [List.length_replicate]; omega),
      List.length_replicate]

/-- The rows of some pairs have the bytes of one row each. -/
private theorem length_rowsOf64 (hfits : PageFits a g)
    (hc : c.page.length = PAGE + 2 * g.layout.rowBytes) (n : ℕ) (ps : List (ℕ × ℕ)) :
    (g.rowsOf64 shard f c n ps).length = ps.length * g.layout.rowBytes := by
  induction ps generalizing c n with
  | nil => simp [rowsOf64]
  | cons p ps ih =>
    have hpage := length_nextPage64 shard f hfits hc n p.1
    rw [rowsOf64, List.length_append, length_rowOf64 _ _ hpage, ih hpage,
      List.length_cons, Nat.succ_mul]
    omega

/-- With page buffers, the keys of a shard are served, as long as the rows of the job have room. -/
private theorem servePairs64_eq (hfits : PageFits a g)
    (hc : c.page.length = PAGE + 2 * g.layout.rowBytes) (n : ℕ) (ps : List (ℕ × ℕ))
    (acc : JobResult) :
    g.servePairs64 a shard f c n ps acc =
      if ps = [] ∨ a.grows (acc.2.length + ps.length * g.layout.rowBytes) then
        .ok (acc.1 ++ ps.map Prod.snd, acc.2 ++ g.rowsOf64 shard f c n ps)
      else .error .panic := by
  induction ps generalizing c n acc with
  | nil => simp [servePairs64, rowsOf64]
  | cons p ps ih =>
    have hpage := length_nextPage64 shard f hfits hc n p.1
    have hrow := length_rowOf64 shard f hpage n p.1
    have hmul : (p :: ps).length * g.layout.rowBytes =
        g.layout.rowBytes + ps.length * g.layout.rowBytes := by
      rw [List.length_cons, Nat.succ_mul, Nat.add_comm]
    simp only [servePairs64, loadPage64_eq_ok hfits hc, takeRow64_eq_ok hfits hpage,
      bind, Except.bind]
    by_cases hgrows : a.grows (acc.2.length + g.layout.rowBytes)
    · rw [a.extend_eq_ok (by rwa [hrow])]
      simp only [ih hpage]
      -- the first row has room, so the rest decides
      have hiff : (ps = [] ∨ a.grows ((acc.2 ++ g.rowOf64 shard f (g.nextPage64 shard f c n p.1) n
            p.1).length + ps.length * g.layout.rowBytes)) ↔
          (p :: ps = [] ∨ a.grows (acc.2.length + (p :: ps).length * g.layout.rowBytes)) := by
        rw [List.length_append, hrow, hmul, ← Nat.add_assoc]
        constructor
        · rintro (rfl | h)
          · exact .inr (by simpa using hgrows)
          · exact .inr h
        · rintro (h | h)
          · cases h
          · exact .inr h
      simp only [hiff, rowsOf64, List.map_cons, List.append_assoc, List.singleton_append]
    · rw [a.extend_eq_panic (by rwa [hrow]), if_neg]
      rintro (h | h)
      · cases h
      · exact hgrows (a.grows_of_le (by rw [hmul]; omega) h)

/-- A shard is served only if there is memory for its page buffer. -/
private theorem pageFits_of_servePairs64 (hrb : g.layout.rowBytes < 2 ^ 64) {page : Bytes} {n : ℕ}
    {ps : List (ℕ × ℕ)} {acc r : JobResult} (hps : ps ≠ [])
    (hpage : a.zeros (ε := IoError) (wordAdd PAGE (wordMul 2 g.layout.rowBytes)) = .ok page)
    (h : g.servePairs64 a shard f ⟨none, page⟩ n ps acc = .ok r) : PageFits a g := by
  by_cases halloc : a.allocates (wordAdd PAGE (wordMul 2 g.layout.rowBytes))
  · rw [a.zeros_eq_ok halloc] at hpage
    cases hpage
    refine pageFits_of_wordAdd hrb halloc ?_
    obtain ⟨p, ps, rfl⟩ := List.exists_cons_of_ne_nil hps
    -- the first key finds the buffer without a page, and asks for one
    obtain ⟨c, hload, -⟩ := Except.bind_eq_ok_iff.mp h
    simp only [loadPage64] at hload
    split_ifs at hload with _ hwant
    · rwa [List.length_replicate] at hwant
    · simp at *
  · rw [a.zeros_eq_panic halloc] at hpage
    cases hpage

/-- A task with a key has a sorted pair. -/
theorem sortedPairs_ne_nil {t : Task} (hne : t.2 ≠ []) : sortedPairs t ≠ [] := by
  intro hnil
  have hlen := congrArg List.length hnil
  rw [sortedPairs, List.length_insertionSort] at hlen
  exact hne (List.length_eq_zero_iff.mp hlen)

/-- A task of an existing shard is served, as long as its rows have room. -/
private theorem runTask64_eq (hfits : PageFits a g) {t : Task} (ht : t.1 < g.files.length)
    (hne : t.2 ≠ []) (acc : JobResult) :
    g.runTask64 a acc t =
      if a.grows (acc.2.length + (sortedPairs t).length * g.layout.rowBytes) then
        .ok (acc.1 ++ (sortedPairs t).map Prod.snd, acc.2 ++ g.taskRows64 t)
      else .error .panic := by
  have hlt := hfits.lt
  have hmul : wordMul 2 g.layout.rowBytes = 2 * g.layout.rowBytes := wordMul_eq (by omega)
  have hadd : wordAdd PAGE (2 * g.layout.rowBytes) = PAGE + 2 * g.layout.rowBytes :=
    wordAdd_eq (by omega)
  have hfile : g.files.getD t.1 [] = g.files[t.1] := by simp [List.getD, ht]
  have hpairs := sortedPairs_ne_nil hne
  simp only [runTask64, Outcome.index_eq_ok (List.getElem?_eq_getElem ht), hmul, hadd,
    a.zeros_eq_ok hfits, bind, Except.bind, taskRows64, hfile]
  exact (servePairs64_eq hfits (length_page_freshPage g) 0 (sortedPairs t) acc).trans
    (by simp only [hpairs, false_or])

/-- A task is served only if its shard exists and there is memory for a page buffer. -/
theorem fits_of_runTask64 (hrb : g.layout.rowBytes < 2 ^ 64) {t : Task} (hne : t.2 ≠ [])
    {acc r : JobResult} (h : g.runTask64 a acc t = .ok r) :
    t.1 < g.files.length ∧ PageFits a g := by
  obtain ⟨f, hindex, h⟩ := Except.bind_eq_ok_iff.mp h
  obtain ⟨page, hpage, h⟩ := Except.bind_eq_ok_iff.mp h
  constructor
  · by_contra hlt
    rw [Outcome.index, List.getElem?_eq_none (by omega)] at hindex
    cases hindex
  · exact pageFits_of_servePairs64 hrb (sortedPairs_ne_nil hne) hpage h

/-- The rows of a task have the bytes of one row for each of its pairs. -/
theorem length_taskRows64 (hfits : PageFits a g) (t : Task) :
    (g.taskRows64 t).length = (sortedPairs t).length * g.layout.rowBytes :=
  length_rowsOf64 hfits (length_page_freshPage g) 0 _

/-- What a job returns has the bytes of one row for each of its pairs. -/
theorem length_jobResult64 (hfits : PageFits a g) (job : List Task) :
    (g.jobResult64 job).2.length = (jobPairs job).length * g.layout.rowBytes := by
  simp only [jobResult64, jobPairs]
  induction job with
  | nil => simp
  | cons t job ih =>
    rw [List.flatMap_cons, List.flatMap_cons, List.length_append, List.length_append,
      length_taskRows64 hfits, ih, Nat.add_mul]

/-- A job on existing shards returns its rows, as long as they have room. -/
theorem runJob64_eq (hfits : PageFits a g) {job : List Task} (hjob : job ≠ [])
    (htasks : ∀ t ∈ job, t.1 < g.files.length ∧ t.2 ≠ []) :
    g.runJob64 a job =
      if a.grows ((jobPairs job).length * g.layout.rowBytes) then .ok (g.jobResult64 job)
      else .error .panic := by
  have hfold : ∀ (job : List Task), (∀ t ∈ job, t.1 < g.files.length ∧ t.2 ≠ []) →
      ∀ acc : JobResult, job.foldlM (g.runTask64 a) acc =
        if job = [] ∨ a.grows (acc.2.length + (jobPairs job).length * g.layout.rowBytes) then
          .ok (acc.1 ++ (jobPairs job).map Prod.snd, acc.2 ++ job.flatMap g.taskRows64)
        else .error .panic := by
    intro job
    induction job with
    | nil =>
      intro _ acc
      simp [jobPairs, pure, Except.pure]
    | cons t job ih =>
      intro htasks acc
      obtain ⟨hfile, hne⟩ := htasks t (by simp)
      have hlen : (jobPairs (t :: job)).length * g.layout.rowBytes =
          (sortedPairs t).length * g.layout.rowBytes +
            (jobPairs job).length * g.layout.rowBytes := by
        rw [jobPairs, List.flatMap_cons, List.length_append, Nat.add_mul]
        rfl
      rw [List.foldlM_cons, runTask64_eq hfits hfile hne]
      by_cases hgrows : a.grows (acc.2.length + (sortedPairs t).length * g.layout.rowBytes)
      · rw [if_pos hgrows]
        refine (ih (fun u hu => htasks u (by simp [hu])) _).trans ?_
        -- the first task has room, so the rest decides
        have hiff : (job = [] ∨ a.grows ((acc.2 ++ g.taskRows64 t).length +
              (jobPairs job).length * g.layout.rowBytes)) ↔
            (t :: job = [] ∨ a.grows (acc.2.length +
              (jobPairs (t :: job)).length * g.layout.rowBytes)) := by
          rw [List.length_append, length_taskRows64 hfits, hlen, ← Nat.add_assoc]
          constructor
          · rintro (rfl | h)
            · exact .inr (by simpa [jobPairs] using hgrows)
            · exact .inr h
          · rintro (h | h)
            · cases h
            · exact .inr h
        refine if_congr hiff ?_ rfl
        simp only [jobPairs, List.flatMap_cons, List.map_append, List.append_assoc]
      · rw [if_neg hgrows, if_neg]
        · rfl
        · rintro (h | h)
          · cases h
          · exact hgrows (a.grows_of_le (by rw [hlen]; omega) h)
  have hrun := hfold job htasks ([], [])
  simpa [runJob64, jobResult64, hjob] using hrun

end Serving

/-! ### Copying the rows -/

/-- If no product of a position below `n` and the width wraps downwards, none wraps, and all are in
bounds. -/
theorem mul_le_of_wordMul {w n len : ℕ} (hw : w < 2 ^ 64) (hlen : len < 2 ^ 63)
    (h : ∀ i < n, wordMul i w ≤ wordMul (i + 1) w ∧ wordMul (i + 1) w ≤ len) : n * w ≤ len := by
  induction n with
  | zero => simp
  | succ n ih =>
    have hn := ih fun i hi => h i (by omega)
    obtain ⟨hmono, hle⟩ := h n (by omega)
    -- one step adds less than a full turn, and a turn would go below the step before
    rw [wordMul_eq (by omega)] at hmono
    rw [wordMul, Nat.succ_mul] at hmono hle
    rw [Nat.succ_mul]
    omega

section Copying

variable {g : BadgeGather}

/-- A row is copied only within the bounds of the rows and of the output, whose length it keeps. -/
theorem bounds_of_copyRow64 {rows out out' : Bytes} {p : ℕ × ℕ}
    (h : g.copyRow64 rows out p = .ok out') :
    (wordMul p.2 g.layout.width ≤ wordMul (p.2 + 1) g.layout.width ∧
      wordMul (p.2 + 1) g.layout.width ≤ rows.length) ∧
    (wordMul p.1 g.layout.width ≤ wordMul (p.1 + 1) g.layout.width ∧
      wordMul (p.1 + 1) g.layout.width ≤ out.length) ∧ out'.length = out.length := by
  obtain ⟨row, hslice, hcopy⟩ := Except.bind_eq_ok_iff.mp h
  rw [sliceRange] at hslice
  split_ifs at hslice with hsrc
  rw [copyFromSlice] at hcopy
  split_ifs at hcopy with hdst
  cases hcopy
  exact ⟨hsrc, ⟨hdst.1, hdst.2.1⟩, length_store (by omega)⟩

/-- Copying a row into the output panics or returns, but never fails with an error. -/
private theorem infallible_copyRow64 (rows out : Bytes) (p : ℕ × ℕ) :
    Outcome.Infallible (g.copyRow64 rows out p) := by
  refine Outcome.Infallible.bind ?_ fun row => ?_
  · rw [sliceRange]
    split_ifs
    · exact .inl ⟨_, rfl⟩
    · exact .inr rfl
  · rw [copyFromSlice]
    split_ifs
    · exact .inl ⟨_, rfl⟩
    · exact .inr rfl

/-- Rows are copied only if every row of the result and every position it is for is in bounds. -/
theorem bounds_of_scatterResult64 {r : JobResult} {out out' : Bytes}
    (h : g.scatterResult64 out r = .ok out') :
    out'.length = out.length ∧
    (∀ j < r.1.length, wordMul j g.layout.width ≤ wordMul (j + 1) g.layout.width ∧
      wordMul (j + 1) g.layout.width ≤ r.2.length) ∧
    ∀ i ∈ r.1, wordMul i g.layout.width ≤ wordMul (i + 1) g.layout.width ∧
      wordMul (i + 1) g.layout.width ≤ out.length := by
  obtain ⟨hlen, hrows⟩ := Except.foldlM_eq_ok (P := fun o => o.length = out.length)
    (fun s p s' hs hp => (bounds_of_copyRow64 hp).2.2.trans hs) rfl h
  refine ⟨hlen, fun j hj => ?_, fun i hi => ?_⟩
  · obtain ⟨s, s', -, hcopy⟩ := hrows (r.1[j], j)
      (List.mem_zipIdx_iff_getElem?.mpr (List.getElem?_eq_getElem hj))
    exact (bounds_of_copyRow64 hcopy).1
  · obtain ⟨j, hj⟩ := List.mem_iff_getElem?.mp hi
    obtain ⟨s, s', hs, hcopy⟩ := hrows (i, j) (List.mem_zipIdx_iff_getElem?.mpr hj)
    rw [← hs]
    exact (bounds_of_copyRow64 hcopy).2.1

/-- When no product wraps, rows are copied as if with natural numbers. -/
private theorem scatterResult64_eq {r : JobResult} (hrows : r.1.length * g.layout.width < 2 ^ 64)
    (hidx : ∀ i ∈ r.1, (i + 1) * g.layout.width < 2 ^ 64) (out : Bytes) :
    g.scatterResult64 out r = g.scatterResult out r := by
  refine Except.foldlM_congr_of_mem (fun o p hp => ?_) out
  have hget := List.mem_zipIdx_iff_getElem?.mp hp
  have hsrc : (p.2 + 1) * g.layout.width < 2 ^ 64 :=
    Nat.lt_of_le_of_lt (Nat.mul_le_mul_right _ (List.getElem?_eq_some_iff.mp hget).1) hrows
  have hdst := hidx p.1 (List.mem_of_getElem? hget)
  rw [copyRow64, wordMul_eq hsrc, wordMul_eq hdst,
    wordMul_eq (Nat.lt_of_le_of_lt (Nat.mul_le_mul_right _ (Nat.le_succ _)) hsrc),
    wordMul_eq (Nat.lt_of_le_of_lt (Nat.mul_le_mul_right _ (Nat.le_succ _)) hdst)]

end Copying

/-! ### The gather -/

/-- What a request must be like for the gather not to panic, whatever the pool does. -/
structure Fits (a : Allocator) (g : BadgeGather) (keys : List ℕ) (threads outLen : ℕ) : Prop where
  /-- There is something to gather. -/
  nonempty : keys ≠ []
  /-- The keys are rows of the table. -/
  inRange : ∀ k ∈ keys, g.layout.InRange k
  /-- There is memory for a page buffer. -/
  page : PageFits a g
  /-- There is memory for the rows of each job. -/
  rows : ∀ job ∈ g.jobs keys threads, a.grows ((jobPairs job).length * g.layout.rowBytes)
  /-- The stored rows are at least as long as the rows handed out. -/
  width_le : g.layout.width ≤ g.layout.rowBytes
  /-- The rows fit into the output. -/
  out_le : keys.length * g.layout.width ≤ outLen

section Gather

variable {a : Allocator} {g : BadgeGather} {keys : List ℕ} {out : Bytes} {threads : ℕ}

/-- In a layout with rows in its shards (`hrows`), a key whose shard is one of the files (`h`) is in
range. -/
private theorem inRange_of_shard_lt (hrows : 0 < g.layout.rowsPerShard) {k : ℕ}
    (h : k / g.layout.rowsPerShard < g.files.length) : g.layout.InRange k := by
  rw [g.files_length, Nat.div_lt_iff_lt_mul hrows] at h
  exact h

/-- Locating a key panics or returns, but never fails with an error. -/
private theorem infallible_locate (k : ℕ) :
    Outcome.Infallible (g.layout.locate k : Outcome IoError _) := by
  rw [Layout.locate]
  split_ifs
  · exact .inr rfl
  · exact .inl ⟨_, rfl⟩

/-- Keys, if there are any (`hne`), are grouped without a panic (`h`) only if the shards have
rows. -/
private theorem rowsPerShard_pos_of_groupKeys {tasks : List Task} (hne : keys ≠ [])
    (h : g.groupKeys keys = .ok tasks) : 0 < g.layout.rowsPerShard := by
  obtain ⟨groups, hfold, -⟩ := Except.bind_eq_ok_iff.mp h
  obtain ⟨k, hk⟩ := List.exists_mem_of_ne_nil keys hne
  obtain ⟨i, hi⟩ := List.mem_iff_getElem?.mp hk
  obtain ⟨s, s', -, hstep⟩ := (Except.foldlM_eq_ok (P := fun _ => True)
    (fun _ _ _ _ _ => trivial) trivial hfold).2 (k, i) (List.mem_zipIdx_iff_getElem?.mpr hi)
  obtain ⟨place, hplace, -⟩ := Except.bind_eq_ok_iff.mp hstep
  rw [Layout.locate] at hplace
  split_ifs at hplace with hzero
  omega

/-- The gather has no error of its own. -/
private theorem infallible_gatherPp64 (sched : Schedule JobResult) :
    Outcome.Infallible (g.gatherPp64 a sched keys out threads) := by
  refine Outcome.Infallible.bind ?_ fun tasks => ?_
  · refine Outcome.Infallible.bind ?_ fun groups => .inl ⟨_, rfl⟩
    exact Outcome.Infallible.foldlM
      (fun _ (p : ℕ × ℕ) => (infallible_locate p.1).bind fun _ => .inl ⟨_, rfl⟩) _ _
  · by_cases hcount : jobCount threads tasks.length = 0
    · simp only [if_pos hcount]
      exact .inr rfl
    · simp only [if_neg hcount]
      refine Outcome.Infallible.bind ?_ fun results => ?_
      · rw [scopeRun]
        split_ifs
        · exact .inr rfl
        · exact .inl ⟨_, rfl⟩
      · exact Outcome.Infallible.foldlM (fun o (r : JobResult) => Outcome.Infallible.foldlM
          (fun o p => infallible_copyRow64 r.2 o p) _ o) _ _

/-- A request with keys has at least one job, and each has at least one task. -/
theorem jobs_pos (g : BadgeGather) (hne : keys ≠ []) (threads : ℕ) :
    0 < jobCount threads (g.tasks keys).length ∧
      0 < ((g.tasks keys).length + jobCount threads (g.tasks keys).length - 1) /
        jobCount threads (g.tasks keys).length :=
  chunk_pos (List.length_pos_iff.mpr (tasks_ne_nil hne))

/-- With memory for its page buffers and rows, a gather of rows in range copies the results of its
jobs one after another, in the order in which they finish. -/
theorem gatherPp64_eq_foldlM (sched : Schedule JobResult) (hne : keys ≠ [])
    (hkeys : ∀ k ∈ keys, g.layout.InRange k) (hbadge : 0 < g.layout.badgeRows)
    (hpage : PageFits a g)
    (hrows : ∀ job ∈ g.jobs keys threads, a.grows ((jobPairs job).length * g.layout.rowBytes)) :
    g.gatherPp64 a sched keys out threads =
      (sched.finish ((g.jobs keys threads).map g.jobResult64)).foldlM g.scatterResult64 out := by
  obtain ⟨k₀, hk₀⟩ := List.exists_mem_of_ne_nil keys hne
  have hpos := jobs_pos g hne threads
  have hrun : ∀ job ∈ g.jobs keys threads, g.runJob64 a job = .ok (g.jobResult64 job) := by
    intro job hjob
    rw [runJob64_eq hpage (ne_nil_of_mem_chunks hpos.2 hjob), if_pos (hrows job hjob)]
    intro t ht
    have htask := mem_tasks_of_mem_jobs hne hjob ht
    exact ⟨shard_lt_of_mem_tasks hkeys htask, (mem_tasks htask).1⟩
  have hscope : scopeRun sched ((g.jobs keys threads).map (g.runJob64 a)) =
      .ok (sched.finish ((g.jobs keys threads).map g.jobResult64)) := scopeRun_map_ok sched hrun
  rw [jobs] at hscope
  rw [gatherPp64, groupKeys_eq (hkeys k₀ hk₀).rowsPerShard_pos hbadge]
  simp only [bind, Except.bind, if_neg hpos.1.ne']
  rw [hscope]
  rfl

/-- Every key of the request, with its place (`hi`), is served by one of the jobs, for any number of
threads. -/
theorem exists_job (g : BadgeGather) (threads : ℕ) {k i : ℕ} (hi : keys[i]? = some k) :
    ∃ job ∈ g.jobs keys threads, (k, i) ∈ jobPairs job := by
  have hne : keys ≠ [] := List.ne_nil_of_mem (List.mem_of_getElem? hi)
  have hmem := (jobPairs_perm (g := g) hne threads).mem_iff.mpr
    (List.mem_zipIdx_iff_getElem?.mpr (show keys[(k, i).2]? = some (k, i).1 from hi))
  exact List.mem_flatMap.mp hmem

/-- A gather whose jobs are run in order and that returns a value had jobs that all return. -/
theorem fits_of_runJobs (hrb : g.layout.rowBytes < 2 ^ 64) (hne : keys ≠ [])
    (hrows : 0 < g.layout.rowsPerShard)
    (hjobs : ∀ job ∈ g.jobs keys threads, ∃ r, g.runJob64 a job = .ok r) :
    (∀ k ∈ keys, g.layout.InRange k) ∧ PageFits a g ∧
      ∀ job ∈ g.jobs keys threads, a.grows ((jobPairs job).length * g.layout.rowBytes) := by
  have hpos := jobs_pos g hne threads
  -- every task was served
  have htasks : ∀ t ∈ g.tasks keys, t.1 < g.files.length ∧ PageFits a g := by
    intro t ht
    rw [← flatten_jobs hne threads] at ht
    obtain ⟨job, hjob, htj⟩ := List.mem_flatten.mp ht
    obtain ⟨r, hr⟩ := hjobs job hjob
    obtain ⟨s, s', -, hstep⟩ := (Except.foldlM_eq_ok (P := fun _ => True)
      (fun _ _ _ _ _ => trivial) trivial hr).2 t htj
    exact fits_of_runTask64 hrb (mem_tasks (mem_tasks_of_mem_jobs hne hjob htj)).1 hstep
  have hkeys : ∀ k ∈ keys, g.layout.InRange k := by
    intro k hk
    obtain ⟨i, hi⟩ := List.mem_iff_getElem?.mp hk
    obtain ⟨t, ht, hshard, -⟩ := exists_task g hi
    exact inRange_of_shard_lt hrows (hshard ▸ (htasks t ht).1)
  obtain ⟨t₀, ht₀⟩ := List.exists_mem_of_ne_nil _ (tasks_ne_nil (g := g) hne)
  have hpage := (htasks t₀ ht₀).2
  refine ⟨hkeys, hpage, fun job hjob => ?_⟩
  obtain ⟨r, hr⟩ := hjobs job hjob
  rw [runJob64_eq hpage (ne_nil_of_mem_chunks hpos.2 hjob)] at hr
  · split_ifs at hr with hgrows
    exact hgrows
  · intro t ht
    have htask := mem_tasks_of_mem_jobs hne hjob ht
    exact ⟨(htasks t htask).1, (mem_tasks htask).1⟩

/-- Job results that are all copied have rows of at least `width` bytes and fit the output. -/
private theorem fits_of_scatterResults (hw : g.layout.width < 2 ^ 64) (hout : out.length < 2 ^ 63)
    (hne : keys ≠ []) (hpage : PageFits a g)
    (hrows : ∀ job ∈ g.jobs keys threads, a.grows ((jobPairs job).length * g.layout.rowBytes))
    {results : List JobResult}
    (hresults : ∀ job ∈ g.jobs keys threads, g.jobResult64 job ∈ results) {out' : Bytes}
    (h : results.foldlM g.scatterResult64 out = .ok out') :
    g.layout.width ≤ g.layout.rowBytes ∧ keys.length * g.layout.width ≤ out.length := by
  have hbounds : ∀ job ∈ g.jobs keys threads, ∃ s s', s.length = out.length ∧
      g.scatterResult64 s (g.jobResult64 job) = .ok s' := fun job hjob =>
    (Except.foldlM_eq_ok (P := fun o : Bytes => o.length = out.length)
      (fun s r s' hs hr => (bounds_of_scatterResult64 hr).1.trans hs) rfl h).2 _ (hresults job hjob)
  constructor
  · -- the rows of the first key's job are `rowBytes` bytes each
    obtain ⟨k, hk⟩ := List.exists_mem_of_ne_nil keys hne
    obtain ⟨i, hi⟩ := List.mem_iff_getElem?.mp hk
    obtain ⟨job, hjob, hp⟩ := exists_job g threads hi
    obtain ⟨s, s', -, hcopy⟩ := hbounds job hjob
    have hlen := length_jobResult64 hpage job
    have hle := mul_le_of_wordMul hw (hlen ▸ a.lt_of_grows (hrows job hjob))
      (bounds_of_scatterResult64 hcopy).2.1
    rw [hlen, jobResult64, List.length_map] at hle
    exact Nat.le_of_mul_le_mul_left hle (List.length_pos_of_mem hp)
  · refine mul_le_of_wordMul hw hout fun i hi => ?_
    obtain ⟨job, hjob, hp⟩ := exists_job g threads (List.getElem?_eq_getElem hi)
    obtain ⟨s, s', hs, hcopy⟩ := hbounds job hjob
    rw [← hs]
    exact (bounds_of_scatterResult64 hcopy).2.2 i (List.mem_map.mpr ⟨_, hp, rfl⟩)

/-- A gather that returns a value when its jobs are run in order is of a request that fits. -/
private theorem fits_of_gatherPp64 (hrb : g.layout.rowBytes < 2 ^ 64) (hw : g.layout.width < 2 ^ 64)
    (hbadge : 0 < g.layout.badgeRows) (hout : out.length < 2 ^ 63) {out' : Bytes}
    (h : g.gatherPp64 a (Schedule.inOrder _) keys out threads = .ok out') :
    Fits a g keys threads out.length := by
  obtain ⟨tasks, hgroup, hrest⟩ := Except.bind_eq_ok_iff.mp h
  have hne : keys ≠ [] := by
    rintro rfl
    cases hgroup
    simp [jobCount, throw, throwThe, MonadExceptOf.throw, bind, Except.bind] at hrest
  have hpos := rowsPerShard_pos_of_groupKeys hne hgroup
  rw [groupKeys_eq hpos hbadge] at hgroup
  cases hgroup
  have hcount := (jobs_pos g hne threads).1
  simp only [if_neg hcount.ne'] at hrest
  obtain ⟨results, hscope, hscatter⟩ := Except.bind_eq_ok_iff.mp hrest
  -- the scope did not panic, so no job did
  have hjobs : ∀ job ∈ g.jobs keys threads, ∃ r, g.runJob64 a job = .ok r := by
    intro job hjob
    rw [scopeRun] at hscope
    split_ifs at hscope with hpanic
    cases hjr : g.runJob64 a job with
    | ok r => exact ⟨r, rfl⟩
    | error e =>
      refine absurd ⟨rfl, List.any_eq_true.mpr ⟨_, List.mem_map_of_mem hjob, ?_⟩⟩ hpanic
      rw [hjr]
      rfl
  obtain ⟨hkeys, hpage, hrows⟩ := fits_of_runJobs hrb hne hpos hjobs
  rw [gatherPp64_eq_foldlM _ hne hkeys hbadge hpage hrows] at h
  obtain ⟨hwidth, hle⟩ := fits_of_scatterResults hw hout hne hpage hrows
    (fun job hjob => List.mem_map_of_mem hjob) h
  exact ⟨hne, hkeys, hpage, hrows, hwidth, hle⟩

/-- A request that does not fit makes the gather panic when the jobs finish in order. -/
theorem fits_of_inOrder (hrb : g.layout.rowBytes < 2 ^ 64) (hw : g.layout.width < 2 ^ 64)
    (hbadge : 0 < g.layout.badgeRows) (hout : out.length < 2 ^ 63)
    (h : g.gatherPp64 a (Schedule.inOrder _) keys out threads ≠ .error .panic) :
    Fits a g keys threads out.length := by
  obtain ⟨out', hok⟩ := (infallible_gatherPp64 (Schedule.inOrder _)).resolve_right h
  exact fits_of_gatherPp64 hrb hw hbadge hout hok

/-- An output buffer of the wrapped size that has room for the rows has exactly their size. -/
theorem Fits.length_out (h : Fits a g keys threads out.length)
    (hlen : out.length = wordMul keys.length g.layout.width) :
    out.length = keys.length * g.layout.width :=
  Nat.le_antisymm (hlen ▸ Nat.mod_le _ _) h.out_le

/-- What a job of a request that fits pushes fits the output. -/
theorem Fits.jobResult64_fits (h : Fits a g keys threads out.length) {job : List Task}
    (hjob : job ∈ g.jobs keys threads) :
    (∀ i ∈ (g.jobResult64 job).1, i < keys.length) ∧
      (g.jobResult64 job).1.length * g.layout.width ≤ (g.jobResult64 job).2.length := by
  refine ⟨fun i hi => ?_, ?_⟩
  · obtain ⟨p, hp, rfl⟩ := List.mem_map.mp hi
    exact (List.getElem?_eq_some_iff.mp (mem_zipIdx_of_mem_jobPairs h.nonempty hjob hp)).1
  · rw [length_jobResult64 h.page, jobResult64, List.length_map]
    exact Nat.mul_le_mul_left _ h.width_le

/-- The gather of a request that fits copies the rows of its jobs. -/
theorem Fits.gatherPp64_eq (h : Fits a g keys threads out.length) (hbadge : 0 < g.layout.badgeRows)
    (hout : out.length < 2 ^ 63) (sched : Schedule JobResult) :
    g.gatherPp64 a sched keys out threads =
      (sched.finish ((g.jobs keys threads).map g.jobResult64)).foldlM g.scatterResult out := by
  rw [gatherPp64_eq_foldlM sched h.nonempty h.inRange hbadge h.page h.rows]
  refine Except.foldlM_congr_of_mem (fun o r hr => ?_) out
  obtain ⟨job, hjob, rfl⟩ := List.mem_map.mp ((sched.finish_perm _).mem_iff.mp hr)
  obtain ⟨hidx, hrows⟩ := h.jobResult64_fits hjob
  refine scatterResult64_eq ?_ (fun i hi => ?_) o
  · have hlt := a.lt_of_grows (h.rows job hjob)
    rw [← length_jobResult64 h.page] at hlt
    omega
  · have hle : (i + 1) * g.layout.width ≤ keys.length * g.layout.width :=
      Nat.mul_le_mul_right _ (hidx i hi)
    have hout_le := h.out_le
    omega

/-- The gather of a request that fits (`h`), into an output that is as long as the machine computes
(`hlen`), returns under every schedule. -/
theorem Fits.gatherPp64_eq_ok (h : Fits a g keys threads out.length)
    (hbadge : 0 < g.layout.badgeRows) (hlen : out.length = wordMul keys.length g.layout.width)
    (hout : out.length < 2 ^ 63) (sched : Schedule JobResult) :
    ∃ out', g.gatherPp64 a sched keys out threads = .ok out' := by
  refine ⟨_,
    (h.gatherPp64_eq hbadge hout sched).trans (foldlM_scatterResult_eq ?_ (h.length_out hlen))⟩
  intro r hr
  obtain ⟨job, hjob, rfl⟩ := List.mem_map.mp ((sched.finish_perm _).mem_iff.mp hr)
  exact h.jobResult64_fits hjob

/-- No schedule makes the gather panic iff the request fits. -/
theorem gatherPp64_noPanic_iff (hrb : g.layout.rowBytes < 2 ^ 64) (hw : g.layout.width < 2 ^ 64)
    (hbadge : 0 < g.layout.badgeRows) (hlen : out.length = wordMul keys.length g.layout.width)
    (hout : out.length < 2 ^ 63) :
    (∀ sched, g.gatherPp64 a sched keys out threads ≠ .error .panic) ↔
      Fits a g keys threads out.length := by
  refine ⟨fun hall => fits_of_inOrder hrb hw hbadge hout (hall _), fun h sched hpanic => ?_⟩
  obtain ⟨out', hok⟩ := h.gatherPp64_eq_ok hbadge hlen hout sched
  rw [hok] at hpanic
  cases hpanic

end Gather

/-! ### Offsets that do not wrap -/

section Offsets

variable {a : Allocator} {g : BadgeGather} {shard : ℕ} {f : Bytes}

/-- The offset of the row of a key is that of a byte of a file. -/
def OffsetFits (g : BadgeGather) (k : ℕ) : Prop := g.byteOff k < 2 ^ 64

/-- If the offset of a key fits into a word, the product of the machine is the exact one. -/
theorem byteOff64_eq {k : ℕ} (hk : g.OffsetFits k) : g.byteOff64 k = g.byteOff k := wordMul_eq hk

/-- If pages and the offset of the key fit, the machine loads the page that the model loads. -/
private theorem nextPage64_eq (hpage : PageFits a g) (c : PageBuf) (n : ℕ) {k : ℕ}
    (hk : g.OffsetFits k) :
    g.nextPage64 shard f c n k = g.loadPage shard f c n k := by
  have hlt := hpage.lt
  have hreq : g.pageReq64 shard f n k = g.pageReq shard f n k := by
    rw [pageReq64, byteOff64_eq hk, wordAdd_eq (by omega)]
    rfl
  rw [nextPage64, pageGot64, hreq, byteOff64_eq hk]
  rfl

/-- If the offset of the key fits, the machine takes the row that the model takes. -/
private theorem rowOf64_eq (c : PageBuf) (n : ℕ) {k : ℕ} (hk : g.OffsetFits k) :
    g.rowOf64 shard f c n k = g.takeRow shard f c n k := by
  have hreq : g.rowReq64 shard f n k = g.rowReq shard f n k := by
    rw [rowReq64, byteOff64_eq hk]
    rfl
  simp only [rowOf64, hreq, byteOff64_eq hk]
  rfl

/-- If pages and the offsets of all keys fit, the machine serves the rows that the model serves. -/
private theorem rowsOf64_eq (hpage : PageFits a g) (c : PageBuf) (n : ℕ) {ps : List (ℕ × ℕ)}
    (hps : ∀ p ∈ ps, g.OffsetFits p.1) :
    g.rowsOf64 shard f c n ps = (g.servePairs shard f c n ps).flatMap Prod.snd := by
  induction ps generalizing c n with
  | nil => rfl
  | cons p ps ih =>
    have hp := hps p (by simp)
    simp only [rowsOf64, servePairs, List.flatMap_cons, nextPage64_eq hpage c n hp,
      rowOf64_eq _ n hp, ih _ (n + 1) fun q hq => hps q (by simp [hq])]

/-- A job whose offsets do not wrap returns the rows of `gatherPp`. -/
private theorem jobResult64_eq (hpage : PageFits a g) {job : List Task}
    (hjob : ∀ p ∈ jobPairs job, g.OffsetFits p.1) : g.jobResult64 job = g.jobResult job := by
  rw [jobResult64, jobResult, jobRows, List.flatMap_assoc]
  congr 1
  refine List.flatMap_congr fun t ht => ?_
  exact rowsOf64_eq hpage _ 0 fun p hp => hjob p (List.mem_flatMap.mpr ⟨t, ht, hp⟩)

/-- The gather of a request that fits and whose offsets do not wrap is the gather with natural
numbers. -/
theorem gatherPp64_eq_gatherPp {keys : List ℕ} {out : Bytes} {threads : ℕ}
    (h : Fits a g keys threads out.length) (hbadge : 0 < g.layout.badgeRows)
    (hout : out.length < 2 ^ 63) (hoff : ∀ k ∈ keys, g.OffsetFits k)
    (sched : Schedule JobResult) :
    g.gatherPp64 a sched keys out threads = g.gatherPp sched keys out threads := by
  have hresults : (g.jobs keys threads).map g.jobResult64 =
      (g.jobs keys threads).map g.jobResult := by
    refine List.map_congr_left fun job hjob => jobResult64_eq h.page fun p hp => ?_
    exact hoff _ (List.mem_of_getElem? (mem_zipIdx_of_mem_jobPairs h.nonempty hjob hp))
  rw [h.gatherPp64_eq hbadge hout, hresults,
    gatherPp_eq_foldlM sched h.nonempty h.inRange hbadge]

end Offsets

end BadgeGather

end EngramDB
