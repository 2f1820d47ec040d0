import EngramDB.Io.Batch.Structure

/-!
# What the gather returns when reads are short

The gather discards the results of its reads, so a short or failed read leaves bytes of an earlier
page, or zeros, where bytes of the file should be. This module says exactly when that shows:

* `page_bufferAt` describes the page buffer of a shard entry by entry: it holds the byte of the
  latest page read that reached the entry, or the initial zero;
* `takeRow_eq_fileRow_iff`: a row is served as the file has it iff its bytes were delivered;
* `honest_gatherPp_iff`: a gather of rows in range is honest, that is, returns an error or the rows
  of the files, iff the request has a key, rows are `width` bytes and every row was delivered.
-/

namespace EngramDB

open SlotBuffer Chunking Grouping

namespace BadgeGather

variable (g : BadgeGather)

/-- The keys of a shard in the order in which they are served. -/
def shardKeys (keys : List ℕ) (shard : ℕ) : List ℕ :=
  (keys.filter (· / g.layout.rowsPerShard = shard)).insertionSort (· ≤ ·)

/-- Start of the page of the `m`-th of the keys `ks`. -/
def pageAt (ks : List ℕ) (m : ℕ) : ℕ := pageId (g.byteOff (ks.getD m 0))

/-- The latest page read for one of the keys `0, …, n` that stored a byte at buffer position `y`.
A key has its page read unless the key before it lies in the same page. -/
def lastDelivery (shard : ℕ) (f : Bytes) (ks : List ℕ) (y : ℕ) : ℕ → Option ℕ
  | 0 => if y < g.pageGot shard f 0 (ks.getD 0 0) then some 0 else none
  | m + 1 =>
    if g.pageAt ks m ≠ g.pageAt ks (m + 1) ∧ y < g.pageGot shard f (m + 1) (ks.getD (m + 1) 0)
    then some (m + 1)
    else lastDelivery shard f ks y m

/-- The byte that the page reads for the keys `0, …, n` left at buffer position `y`. -/
def leftByte (shard : ℕ) (f : Bytes) (ks : List ℕ) (n y : ℕ) : Option UInt8 :=
  match g.lastDelivery shard f ks y n with
  | some m => f[g.pageAt ks m + y]?
  | none => some 0

/-- The bytes of the row of `k`, the `n`-th key of a shard, were delivered. The row lies in the
file, and if it lies in one page, the page reads left its bytes in the buffer; if it does not, its
own read stored them, or left zeros that the file has, too. -/
def Delivered (shard : ℕ) (f : Bytes) (ks : List ℕ) (n k : ℕ) : Prop :=
  g.byteOff k + g.layout.rowBytes ≤ f.length ∧
    if g.byteOff k - pageId (g.byteOff k) + g.layout.rowBytes ≤ PAGE then
      ∀ x < g.layout.rowBytes,
        g.leftByte shard f ks n (g.byteOff k - pageId (g.byteOff k) + x) = f[g.byteOff k + x]?
    else
      ∀ x < g.layout.rowBytes, (g.backend.readExactAt (g.rowReq shard f n k)).1 ≤ x →
        f[g.byteOff k + x]? = some 0

/-- Row `i` of the output is the row of key `k`, which its shard file has in full. -/
def RowMatches (out : Bytes) (i k : ℕ) : Prop :=
  g.byteOff k + g.layout.rowBytes ≤ (g.files.getD (k / g.layout.rowsPerShard) []).length ∧
    slot g.layout.width out i = g.storedRow k

/-- A gather is honest if it returns an error, or rows that match the files. -/
def Honest (keys : List ℕ) : Outcome IoError Bytes → Prop
  | .ok out => ∀ i k, keys[i]? = some k → g.RowMatches out i k
  | .error (.error _) => True
  | .error .panic => False

section Buffer

variable {g} {shard : ℕ} {f : Bytes}

/-- The page buffer after the pages of some keys were loaded one after another. -/
def loadKeys (g : BadgeGather) (shard : ℕ) (f : Bytes) : PageBuf → ℕ → List ℕ → PageBuf
  | c, _, [] => c
  | c, n, k :: ks => loadKeys g shard f (g.loadPage shard f c n k) (n + 1) ks

private theorem loadKeys_concat (c : PageBuf) (n k : ℕ) (ks : List ℕ) :
    g.loadKeys shard f c n (ks ++ [k]) =
      g.loadPage shard f (g.loadKeys shard f c n ks) (n + ks.length) k := by
  induction ks generalizing c n with
  | nil => rfl
  | cons k' ks ih =>
    rw [List.cons_append, loadKeys, ih, loadKeys, List.length_cons]
    congr 1
    omega

/-- The `j`-th row served comes from the buffer as the first `j + 1` keys left it. -/
private theorem getElem?_servePairs (c : PageBuf) (n : ℕ) (ps : List (ℕ × ℕ)) (j : ℕ) :
    (g.servePairs shard f c n ps)[j]? = ps[j]?.map fun p =>
      (p.2, g.takeRow shard f (g.loadKeys shard f c n ((ps.map Prod.fst).take (j + 1)))
        (n + j) p.1) := by
  induction ps generalizing c n j with
  | nil => simp [servePairs]
  | cons p ps ih =>
    cases j with
    | zero => simp [servePairs, loadKeys]
    | succ j =>
      rw [servePairs, List.getElem?_cons_succ, ih, List.getElem?_cons_succ, List.map_cons,
        List.take_succ_cons, loadKeys]
      congr 2
      funext q
      rw [show n + 1 + j = n + (j + 1) by omega]

/-- The page buffer of a shard after the pages of the keys `0, …, n` were loaded. -/
def bufferAt (g : BadgeGather) (shard : ℕ) (f : Bytes) (ks : List ℕ) (n : ℕ) : PageBuf :=
  g.loadKeys shard f g.freshPage 0 (ks.take (n + 1))

theorem bufferAt_zero {ks : List ℕ} (h : 0 < ks.length) :
    g.bufferAt shard f ks 0 = g.loadPage shard f g.freshPage 0 (ks.getD 0 0) := by
  cases ks with
  | nil => simp at h
  | cons k ks => simp [bufferAt, loadKeys]

theorem bufferAt_succ {ks : List ℕ} {n : ℕ} (h : n + 1 < ks.length) :
    g.bufferAt shard f ks (n + 1) =
      g.loadPage shard f (g.bufferAt shard f ks n) (n + 1) (ks.getD (n + 1) 0) := by
  have htake : ks.take (n + 1 + 1) = ks.take (n + 1) ++ [ks.getD (n + 1) 0] := by
    rw [List.take_add_one, List.getElem?_eq_getElem h]
    simp [List.getD, h]
  have hlen : (ks.take (n + 1)).length = n + 1 := List.length_take_of_le (by omega)
  rw [bufferAt, htake, loadKeys_concat, hlen, Nat.zero_add, bufferAt]

/-- After the `n`-th key the buffer is of that key's page. -/
private theorem lastPage_bufferAt {ks : List ℕ} {n : ℕ} (h : n < ks.length) :
    (g.bufferAt shard f ks n).lastPage = some (g.pageAt ks n) := by
  cases n with
  | zero => rw [bufferAt_zero h]; exact lastPage_loadPage _ _
  | succ n => rw [bufferAt_succ h]; exact lastPage_loadPage _ _

/-- Loading a page replaces the bytes that its read stored. -/
theorem getElem?_page_loadPage (c : PageBuf) (n k y : ℕ) :
    (g.loadPage shard f c n k).page[y]? =
      if c.lastPage ≠ some (pageId (g.byteOff k)) ∧ y < g.pageGot shard f n k
      then f[pageId (g.byteOff k) + y]? else c.page[y]? := by
  have hgot := pageGot_le (g := g) shard f n k
  unfold loadPage
  by_cases hpage : c.lastPage ≠ some (pageId (g.byteOff k))
  · rw [if_pos hpage, ReadReq.getElem?_fill _ (by simp only [ReadReq.available, pageReq]; omega)]
    simp only [hpage, ne_eq, not_false_eq_true, true_and]
    rfl
  · rw [if_neg hpage, if_neg (fun h => hpage h.1)]

/-- Entry by entry, the page buffer holds what the page reads left there. -/
theorem page_bufferAt {ks : List ℕ} {n y : ℕ} (hn : n < ks.length)
    (hy : y < PAGE + 2 * g.layout.rowBytes) :
    (g.bufferAt shard f ks n).page[y]? = g.leftByte shard f ks n y := by
  -- the buffer is only ever overwritten, so a byte is from the last read that reached it
  induction n with
  | zero =>
    have hfresh : g.freshPage.page[y]? = some 0 := by simp [freshPage, hy]
    have hnone : g.freshPage.lastPage ≠ some (pageId (g.byteOff (ks.getD 0 0))) := by
      simp [freshPage]
    rw [bufferAt_zero hn, getElem?_page_loadPage, hfresh, leftByte, lastDelivery]
    by_cases hgot : y < g.pageGot shard f 0 (ks.getD 0 0)
    · rw [if_pos ⟨hnone, hgot⟩, if_pos hgot]
      rfl
    · rw [if_neg (fun h => hgot h.2), if_neg hgot]
  | succ n ih =>
    have hlast : (g.bufferAt shard f ks n).lastPage = some (g.pageAt ks n) :=
      lastPage_bufferAt (Nat.lt_of_succ_lt hn)
    rw [bufferAt_succ hn, getElem?_page_loadPage, hlast, ih (by omega), leftByte, leftByte,
      lastDelivery]
    have hiff : some (g.pageAt ks n) ≠ some (pageId (g.byteOff (ks.getD (n + 1) 0))) ↔
        g.pageAt ks n ≠ g.pageAt ks (n + 1) := by
      rw [ne_eq, Option.some_inj]
      rfl
    simp only [hiff]
    split_ifs
    · rfl
    · rfl

private theorem length_page_bufferAt (ks : List ℕ) (n : ℕ) :
    (g.bufferAt shard f ks n).page.length = PAGE + 2 * g.layout.rowBytes := by
  have hload : ∀ (ks : List ℕ) (c : PageBuf) (n : ℕ),
      c.page.length = PAGE + 2 * g.layout.rowBytes →
      (g.loadKeys shard f c n ks).page.length = PAGE + 2 * g.layout.rowBytes := by
    intro ks
    induction ks with
    | nil => intro c n hc; exact hc
    | cons k ks ih => intro c n hc; exact ih _ _ (length_page_loadPage hc n k)
  exact hload _ _ _ (length_page_freshPage g)

/-- A row is served as the file has it iff its bytes were delivered. -/
theorem takeRow_eq_fileRow_iff {ks : List ℕ} {n k : ℕ} (hk : ks[n]? = some k) :
    (g.byteOff k + g.layout.rowBytes ≤ f.length ∧
      g.takeRow shard f (g.bufferAt shard f ks n) n k = g.fileRow f k) ↔
      g.Delivered shard f ks n k := by
  have hn : n < ks.length := (List.getElem?_eq_some_iff.mp hk).1
  have hle := pageId_le (g.byteOff k)
  rw [Delivered]
  refine and_congr_right fun hrow => ?_
  have hlen := length_fileRow hrow
  have hfile : ∀ x < g.layout.rowBytes, (g.fileRow f k)[x]? = f[g.byteOff k + x]? := by
    intro x hx
    rw [fileRow, getElem?_slot, if_pos hx, byteOff]
  -- both sides have `rowBytes` bytes, so compare them byte by byte
  rw [eq_iff_getElem? (length_takeRow (length_page_bufferAt ks n) n k) hlen]
  simp only [takeRow]
  split_ifs with hin
  · refine forall₂_congr fun x hx => ?_
    rw [List.getElem?_take_of_lt hx, List.getElem?_drop, page_bufferAt hn (by omega), hfile x hx]
  · have hstored := g.backend.readExactAt_le (g.rowReq shard f n k)
    refine forall₂_congr fun x hx => ?_
    rw [ReadReq.getElem?_fill _ (by omega), List.getElem?_replicate, if_pos hx, hfile x hx]
    split_ifs with hlt
    · exact iff_of_true rfl fun hge => absurd hge (by omega)
    · rw [eq_comm]
      exact ⟨fun h _ => h, fun h => h (by omega)⟩

end Buffer

section Requests

variable {g} {keys : List ℕ}

instance : Std.Total pairLe where
  total a b := by simp only [pairLe]; omega

instance : IsTrans (ℕ × ℕ) pairLe where
  trans a b c := by simp only [pairLe]; omega

/-- A task serves the keys of its shard in order. -/
theorem map_fst_sortedPairs {t : Task} (ht : t ∈ g.tasks keys) :
    (sortedPairs t).map Prod.fst = g.shardKeys keys t.1 := by
  have hgroup : t.2 = keys.zipIdx.filter (fun p => p.1 / g.layout.rowsPerShard = t.1) :=
    eq_filter_of_mem_groupBy ((List.perm_insertionSort _ _).mem_iff.mp ht)
  have hkeys : t.2.map Prod.fst = keys.filter (· / g.layout.rowsPerShard = t.1) := by
    conv_rhs => rw [← List.zipIdx_map_fst 0 keys, List.filter_map]
    rw [hgroup]
    rfl
  have hperm : ((sortedPairs t).map Prod.fst).Perm (g.shardKeys keys t.1) :=
    ((sortedPairs_perm t).map _).trans (hkeys ▸ (List.perm_insertionSort _ _).symm)
  refine hperm.eq_of_pairwise (fun a b _ _ => Nat.le_antisymm) ?_
    (List.pairwise_insertionSort (· ≤ ·) _)
  refine List.pairwise_map.mpr ((List.pairwise_insertionSort pairLe t.2).imp ?_)
  intro a b hab
  rcases hab with h | h
  · exact Nat.le_of_lt h
  · exact Nat.le_of_eq h.1

/-- The `n`-th row of a task comes from the buffer as the keys of its shard left it. -/
private theorem getElem?_served {t : Task} (ht : t ∈ g.tasks keys) (n : ℕ) :
    (g.served t)[n]? = (sortedPairs t)[n]?.map fun p =>
      (p.2, g.takeRow t.1 (g.files.getD t.1 [])
        (g.bufferAt t.1 (g.files.getD t.1 []) (g.shardKeys keys t.1) n) n p.1) := by
  rw [served, getElem?_servePairs, map_fst_sortedPairs ht]
  simp only [Nat.zero_add]
  rfl

/-- A request without keys panics. -/
theorem gatherPp_nil (g : BadgeGather) (sched : Schedule JobResult) (out : Bytes) (threads : ℕ) :
    g.gatherPp sched [] out threads = .error .panic := by
  have htasks : g.groupKeys [] = .ok [] := rfl
  rw [gatherPp, htasks]
  simp [bind, Except.bind, jobCount, throw, throwThe, MonadExceptOf.throw]

/-- Every job of a request has a key to serve. -/
private theorem jobPairs_ne_nil (hne : keys ≠ []) {threads : ℕ} {job : List Task}
    (hjob : job ∈ g.jobs keys threads) : jobPairs job ≠ [] := by
  have hjobNe : job ≠ [] :=
    ne_nil_of_mem_chunks (chunk_pos (List.length_pos_iff.mpr (tasks_ne_nil hne))).2 hjob
  obtain ⟨t, ht⟩ := List.exists_mem_of_ne_nil _ hjobNe
  obtain ⟨p, hp⟩ :=
    List.exists_mem_of_ne_nil _ (mem_tasks (mem_tasks_of_mem_jobs hne hjob ht)).1
  exact List.ne_nil_of_mem
    (List.mem_flatMap.mpr ⟨t, ht, (sortedPairs_perm t).mem_iff.mpr hp⟩)

/-- A request for rows of no bytes, to be copied `width` bytes each, panics. -/
private theorem gatherPp_of_rowBytes_eq_zero (sched : Schedule JobResult) (hne : keys ≠ [])
    (hkeys : ∀ k ∈ keys, g.layout.InRange k) (hbadge : 0 < g.layout.badgeRows)
    (hzero : g.layout.rowBytes = 0) (hwidth : 0 < g.layout.width) (out : Bytes) (threads : ℕ) :
    g.gatherPp sched keys out threads = .error .panic := by
  rw [gatherPp_eq_foldlM sched hne hkeys hbadge]
  have hperm := sched.finish_perm ((g.jobs keys threads).map g.jobResult)
  cases hres : sched.finish ((g.jobs keys threads).map g.jobResult) with
  | nil =>
    have hjobs : g.jobs keys threads = [] := by
      rw [hres] at hperm
      exact List.map_eq_nil_iff.mp (List.nil_perm.mp hperm)
    have hflat := flatten_jobs (g := g) hne threads
    rw [hjobs] at hflat
    exact absurd hflat.symm (tasks_ne_nil hne)
  | cons r rs =>
    have hr : r ∈ (g.jobs keys threads).map g.jobResult := by
      rw [← hperm.mem_iff, hres]
      simp
    obtain ⟨job, hjob, rfl⟩ := List.mem_map.mp hr
    have hrows : (g.jobRows job).length = 0 := by rw [length_jobRows, hzero, Nat.mul_zero]
    -- the first slice of the job's rows ends past their end
    have hslice : sliceRange (ε := IoError) (g.jobRows job) 0 g.layout.width =
        .error .panic := by
      rw [sliceRange, if_neg (by omega)]
    have hscatter : g.scatterResult out (g.jobResult job) = .error .panic := by
      cases hp : jobPairs job with
      | nil => exact absurd hp (jobPairs_ne_nil hne hjob)
      | cons p ps =>
        simp only [scatterResult, jobResult, hp, List.map_cons, List.zipIdx_cons, List.foldlM_cons,
          Nat.zero_mul, Nat.zero_add, Nat.one_mul, hslice]
        rfl
    rw [List.foldlM_cons, hscatter]
    rfl

/-- Every key that a shard serves belongs to a pair of the shard's task. -/
private theorem exists_pair_of_shardKeys {shard n k : ℕ}
    (hk : (g.shardKeys keys shard)[n]? = some k) :
    ∃ t ∈ g.tasks keys, t.1 = shard ∧ ∃ p, (sortedPairs t)[n]? = some p ∧ p.1 = k := by
  have hmem := (List.perm_insertionSort (· ≤ ·) _).mem_iff.mp (List.mem_of_getElem? hk)
  obtain ⟨hkeys, hshard⟩ := List.mem_filter.mp hmem
  obtain ⟨i, hi⟩ := List.mem_iff_getElem?.mp hkeys
  obtain ⟨t, ht, htask, -⟩ := exists_task g hi
  have hshard' : t.1 = shard := htask.trans (decide_eq_true_eq.mp hshard)
  refine ⟨t, ht, hshard', ?_⟩
  rw [← hshard', ← map_fst_sortedPairs ht, List.getElem?_map] at hk
  exact Option.map_eq_some_iff.mp hk

/-- A pair of a task is a key of the request with its position. -/
private theorem getElem?_of_sortedPairs {t : Task} (ht : t ∈ g.tasks keys) {p : ℕ × ℕ}
    (hp : p ∈ sortedPairs t) : keys[p.2]? = some p.1 :=
  List.mem_zipIdx_iff_getElem?.mp ((mem_tasks ht).2 p ((sortedPairs_perm t).mem_iff.mp hp)).1

/-- When the rows served for a task are in the slots of their keys, a row matches its file iff it
was delivered. -/
theorem rowMatches_iff_delivered {out : Bytes} {t : Task} (ht : t ∈ g.tasks keys) {n : ℕ}
    {p : ℕ × ℕ} (hp : (sortedPairs t)[n]? = some p)
    (hslots : ∀ q ∈ g.served t, slot g.layout.width out q.1 = q.2) :
    g.RowMatches out p.2 p.1 ↔
      g.Delivered t.1 (g.files.getD t.1 []) (g.shardKeys keys t.1) n p.1 := by
  have hk : (g.shardKeys keys t.1)[n]? = some p.1 := by
    rw [← map_fst_sortedPairs ht, List.getElem?_map, hp]
    rfl
  have hserved := getElem?_served ht n
  rw [hp, Option.map_some] at hserved
  have hshard : p.1 / g.layout.rowsPerShard = t.1 :=
    ((mem_tasks ht).2 p ((sortedPairs_perm t).mem_iff.mp (List.mem_of_getElem? hp))).2
  rw [← takeRow_eq_fileRow_iff hk, RowMatches, storedRow, hshard,
    hslots _ (List.mem_of_getElem? hserved)]

/-- The bytes of every requested row were delivered. -/
def AllDelivered (g : BadgeGather) (keys : List ℕ) : Prop :=
  ∀ shard n k, (g.shardKeys keys shard)[n]? = some k →
    g.Delivered shard (g.files.getD shard []) (g.shardKeys keys shard) n k

/-- A gather of rows in range, of `width` bytes each, succeeds, and its rows match the files iff the
bytes of every requested row were delivered. -/
theorem gatherPp_matches_iff (sched : Schedule JobResult) (hne : keys ≠ [])
    (hkeys : ∀ k ∈ keys, g.layout.InRange k) (hbadge : 0 < g.layout.badgeRows)
    (hwidth : g.layout.width = g.layout.rowBytes) {out : Bytes}
    (hout : out.length = keys.length * g.layout.width) (threads : ℕ) :
    ∃ out', g.gatherPp sched keys out threads = .ok out' ∧
      out'.length = keys.length * g.layout.width ∧
      ((∀ i k, keys[i]? = some k → g.RowMatches out' i k) ↔ g.AllDelivered keys) := by
  obtain ⟨out', hok, hlen, hslots⟩ := gatherPp_served sched hne hkeys hbadge hwidth hout threads
  refine ⟨out', hok, hlen, ?_, ?_⟩
  · intro hmatches shard n k hk
    obtain ⟨t, ht, rfl, p, hp, rfl⟩ := exists_pair_of_shardKeys hk
    refine (rowMatches_iff_delivered ht hp (hslots t ht)).mp (hmatches _ _ ?_)
    exact getElem?_of_sortedPairs ht (List.mem_of_getElem? hp)
  · intro hdelivered i k hik
    obtain ⟨t, ht, -, hmem⟩ := exists_task g hik
    obtain ⟨n, hn⟩ := List.mem_iff_getElem?.mp ((sortedPairs_perm t).mem_iff.mpr hmem)
    refine (rowMatches_iff_delivered ht hn (hslots t ht)).mpr (hdelivered t.1 n k ?_)
    rw [← map_fst_sortedPairs ht, List.getElem?_map, hn]
    rfl

end Requests

/-- A gather of the `keys` in range (`hkeys`), into an output of their size (`hout`), is honest,
whatever the files hold and the backend answers, and whatever the number of threads and the order in
which they finish, iff the request has a key, rows are `width` bytes, and the bytes of every
requested row were delivered. -/
theorem honest_gatherPp_iff {g : BadgeGather} {shards rowsPerShard width elemBytes : ℕ}
    (hlayout : g.layout = Layout.new shards rowsPerShard width elemBytes) {keys : List ℕ}
    (hkeys : ∀ k ∈ keys, k < shards * rowsPerShard) {out : Bytes}
    (hout : out.length = keys.length * width) (threads : ℕ) (sched : Schedule JobResult) :
    g.Honest keys (g.gatherPp sched keys out threads) ↔
      keys ≠ [] ∧ g.layout.rowBytes = width ∧ ∀ shard n k, (g.shardKeys keys shard)[n]? = some k →
        g.Delivered shard (g.files.getD shard []) (g.shardKeys keys shard) n k := by
  have hw : g.layout.width = width := by rw [hlayout]; rfl
  have hbadge : 0 < g.layout.badgeRows := hlayout ▸ Layout.badgeRows_new_pos _ _ _ _
  have hrange : ∀ k ∈ keys, g.layout.InRange k := fun k hk => by
    rw [hlayout]
    exact hkeys k hk
  rw [← hw] at hout ⊢
  rcases eq_or_ne keys [] with rfl | hne
  · rw [gatherPp_nil]
    exact iff_of_false id fun h => h.1 rfl
  rcases eq_or_ne g.layout.rowBytes g.layout.width with hrb | hrb
  · -- rows are `width` bytes: compare them with the files one by one
    obtain ⟨out', hok, -, hmatches⟩ :=
      gatherPp_matches_iff sched hne hrange hbadge hrb.symm hout threads
    rw [hok]
    exact hmatches.trans ⟨fun h => ⟨hne, hrb, h⟩, fun h => h.2.2⟩
  · -- rows are not `width` bytes: no output row is a row of a file
    refine iff_of_false (fun hhonest => ?_) fun h => hrb h.2.1
    have hrowBytes : g.layout.rowBytes = width * elemBytes := by rw [hlayout]; rfl
    rcases Nat.lt_or_gt_of_ne hrb with hlt | hgt
    · have hzero : g.layout.rowBytes = 0 := by
        rcases Nat.eq_zero_or_pos elemBytes with h0 | hpos
        · rw [hrowBytes, h0, Nat.mul_zero]
        · have := Nat.le_mul_of_pos_right width hpos
          omega
      rw [gatherPp_of_rowBytes_eq_zero sched hne hrange hbadge hzero (by omega)] at hhonest
      exact hhonest
    · obtain ⟨out', hok, hlen, -⟩ :=
        gatherPp_eq_ok sched hne hrange hbadge (Nat.le_of_lt hgt) hout threads
      rw [hok] at hhonest
      have hpos : 0 < keys.length := List.length_pos_iff.mpr hne
      obtain ⟨hfile, hslot⟩ := hhonest 0 keys[0] (List.getElem?_eq_getElem hpos)
      have hwidth : (slot g.layout.width out' 0).length = g.layout.width :=
        length_slot (by rw [hlen]; exact Nat.mul_le_mul_right _ hpos)
      rw [hslot, storedRow, length_fileRow hfile] at hwidth
      exact hrb hwidth

/-- A table of two shards of two three-byte rows, whose second file is cut inside its last row. -/
def cutRows : BadgeGather where
  layout := Layout.new 2 2 3 1
  files := [[1, 2, 3, 4, 5, 6], [7, 8, 9, 10]]
  backend := preadvBackend fullPread
  files_length := rfl

/-- Four rows of both shards are gathered by two threads, one of them twice. -/
theorem honest_gatherPp_iff_cutRows :
    cutRows.Honest [2, 0, 1, 2]
        (cutRows.gatherPp (Schedule.inOrder _) [2, 0, 1, 2] (List.replicate 12 0) 2) ↔
      [2, 0, 1, 2] ≠ [] ∧ cutRows.layout.rowBytes = 3 ∧
        ∀ shard n k, (cutRows.shardKeys [2, 0, 1, 2] shard)[n]? = some k →
          cutRows.Delivered shard (cutRows.files.getD shard [])
            (cutRows.shardKeys [2, 0, 1, 2] shard) n k :=
  honest_gatherPp_iff rfl (by decide) rfl 2 _

/-- The backend all of whose reads fail. -/
def deadBackend : IoBackend where
  readAt _ := .error (.os 5)
  readExactAt _ := (0, .error (.os 5))
  readAt_le h := by cases h
  readExactAt_le _ := Nat.zero_le _
  readExactAt_ok h := by cases h

/-- A table of one shard with one one-byte row. -/
def oneRow (backend : IoBackend) : BadgeGather where
  layout := Layout.new 1 1 1 1
  files := [[7]]
  backend := backend
  files_length := rfl

/-- When every read of the only row fails, the gather still succeeds, with a row of zeros. -/
theorem not_honest_gatherPp_deadBackend :
    (∀ k ∈ [0], (oneRow deadBackend).layout.InRange k) ∧
      (oneRow deadBackend).gatherPp (Schedule.inOrder _) [0] [0] 1 = .ok [0] ∧
      ¬ (oneRow deadBackend).Honest [0]
        ((oneRow deadBackend).gatherPp (Schedule.inOrder _) [0] [0] 1) := by
  have hrun : (oneRow deadBackend).gatherPp (Schedule.inOrder _) [0] [0] 1 = .ok [0] := by
    rfl
  refine ⟨by decide, hrun, ?_⟩
  rw [hrun]
  intro hhonest
  have hrow := (hhonest 0 0 rfl).2
  exact absurd hrow (by decide)

end BadgeGather

end EngramDB
