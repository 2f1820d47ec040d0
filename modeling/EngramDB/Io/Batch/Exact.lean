import EngramDB.Io.Batch.Structure

/-!
# The gather is exact when no read is short

When every positional read stores all the bytes asked for that exist, and every shard file holds
its rows, the page buffer of a shard shows the file (`PageBuf.Shows`), so every row that is served
is the row of the file:

* `servePairs_of_full`: the rows served for a shard are the rows of its file;
* `gatherPp_of_full`: the gather succeeds and slot `i` of the output is the row of `keys[i]`.
-/

namespace EngramDB

open SlotBuffer Chunking Grouping

/-- Every read stores what was asked for as far as it exists, and a filling read inside the file
succeeds. -/
structure IoBackend.Full (b : IoBackend) : Prop where
  /-- A best-effort read is never short. -/
  readAt : ∀ r, b.readAt r = .ok (min r.len r.available)
  /-- A filling read inside the file fills the buffer. -/
  readExactAt : ∀ r, r.off + r.len ≤ r.file.length → b.readExactAt r = (r.len, .ok ())

/-- The standard-library backend is never short when the system is not. -/
theorem preadvBackend_full {os : Pread} (hos : os.Full) : (preadvBackend os).Full where
  readAt := hos
  readExactAt _ h := platformReadExactAt_of_full hos h

/-- The buffer holds the file from the start of the page it was last read for, as far as a row
that starts in the page can reach. -/
def PageBuf.Shows (c : PageBuf) (f : Bytes) (rowBytes : ℕ) : Prop :=
  ∀ p, c.lastPage = some p → ∀ x < PAGE + rowBytes, p + x < f.length → c.page[x]? = f[p + x]?

namespace BadgeGather

variable {g : BadgeGather} {shard : ℕ} {f : Bytes} {c : PageBuf}

/-- Loading a page with a full read leaves the buffer showing the file. -/
private theorem shows_loadPage (hfull : g.backend.Full) (hc : c.Shows f g.layout.rowBytes)
    (n k : ℕ) :
    (g.loadPage shard f c n k).Shows f g.layout.rowBytes := by
  unfold loadPage
  split_ifs with hpage
  · intro p hp x hx hfile
    obtain rfl : pageId (g.byteOff k) = p := Option.some.inj hp
    have hgot : g.pageGot shard f n k =
        min (PAGE + g.layout.rowBytes) (f.length - pageId (g.byteOff k)) := by
      rw [pageGot, hfull.readAt]
      rfl
    have havail : (g.pageReq shard f n k).available = f.length - pageId (g.byteOff k) := rfl
    rw [ReadReq.getElem?_fill _ (by omega), if_pos (by omega)]
    rfl
  · exact hc

/-- With full reads, the row served for a key is the row of the file. -/
private theorem takeRow_of_full (hfull : g.backend.Full) (hc : c.Shows f g.layout.rowBytes)
    {n k : ℕ} (hpage : c.lastPage = some (pageId (g.byteOff k)))
    (hrow : g.byteOff k + g.layout.rowBytes ≤ f.length) :
    g.takeRow shard f c n k = g.fileRow f k := by
  have hle := pageId_le (g.byteOff k)
  simp only [takeRow]
  split_ifs with hin
  · apply List.ext_getElem?
    intro x
    rw [fileRow, getElem?_slot, List.getElem?_take]
    split_ifs with hx
    · rw [List.getElem?_drop, hc _ hpage _ (by omega) (by omega), byteOff]
      congr 1
      rw [byteOff] at hle
      omega
    · rfl
  · have hread := hfull.readExactAt (g.rowReq shard f n k) hrow
    rw [hread]
    simp only [ReadReq.fill, rowReq, fileRow, slot, byteOff]
    rw [List.drop_replicate, Nat.sub_self, List.replicate_zero, List.append_nil]

/-- With full reads, the rows served for a shard are the rows of its file. -/
theorem servePairs_of_full (hfull : g.backend.Full) {ps : List (ℕ × ℕ)}
    (hrows : ∀ p ∈ ps, g.byteOff p.1 + g.layout.rowBytes ≤ f.length)
    (hc : c.Shows f g.layout.rowBytes) (n : ℕ) :
    g.servePairs shard f c n ps = ps.map fun p => (p.2, g.fileRow f p.1) := by
  induction ps generalizing c n with
  | nil => rfl
  | cons p ps ih =>
    have hload : (g.loadPage shard f c n p.1).Shows f g.layout.rowBytes :=
      shows_loadPage hfull hc n p.1
    rw [servePairs, List.map_cons, ih (fun q hq => hrows q (by simp [hq])) hload,
      takeRow_of_full hfull hload (lastPage_loadPage n p.1) (hrows p (by simp))]

/-- A fresh page buffer has not been read for any page. -/
private theorem shows_freshPage (g : BadgeGather) (f : Bytes) :
    g.freshPage.Shows f g.layout.rowBytes := by
  intro p hp
  cases hp

/-- Every shard file holds the rows that the layout says it has. -/
def Complete (g : BadgeGather) : Prop :=
  ∀ f ∈ g.files, g.layout.rowsPerShard * g.layout.rowBytes ≤ f.length

/-- In a complete file, every row ends inside the file. -/
private theorem byteOff_add_le {k : ℕ} (hpos : 0 < g.layout.rowsPerShard)
    (hf : g.layout.rowsPerShard * g.layout.rowBytes ≤ f.length) :
    g.byteOff k + g.layout.rowBytes ≤ f.length := by
  calc g.byteOff k + g.layout.rowBytes
      = (k % g.layout.rowsPerShard + 1) * g.layout.rowBytes := (Nat.succ_mul _ _).symm
    _ ≤ g.layout.rowsPerShard * g.layout.rowBytes := Nat.mul_le_mul_right _ (Nat.mod_lt k hpos)
    _ ≤ f.length := hf

/-- The row of the key lies in the file of its shard. -/
def HoldsRow (g : BadgeGather) (k : ℕ) : Prop :=
  g.byteOff k + g.layout.rowBytes ≤ (g.files.getD (k / g.layout.rowsPerShard) []).length

/-- Files that are complete (`hfiles`) hold the bytes of every row in range (`hk`). -/
theorem Complete.holdsRow (hfiles : g.Complete) {k : ℕ} (hk : g.layout.InRange k) :
    g.HoldsRow k := by
  have hshard : k / g.layout.rowsPerShard < g.files.length := g.files_length ▸ hk.shard_lt
  have hfile :
      g.files.getD (k / g.layout.rowsPerShard) [] = g.files[k / g.layout.rowsPerShard] := by
    simp [List.getD, hshard]
  rw [HoldsRow, hfile]
  exact byteOff_add_le hk.rowsPerShard_pos (hfiles _ (List.getElem_mem hshard))

/-- With full reads, the rows served for a task are the stored rows of its keys, if the files hold
them. -/
theorem served_of_full (hfull : g.backend.Full) {keys : List ℕ} (hrows : ∀ k ∈ keys, g.HoldsRow k)
    {t : Task} (ht : t ∈ g.tasks keys) :
    g.served t = (sortedPairs t).map fun p => (p.2, g.storedRow p.1) := by
  have hkey : ∀ p ∈ sortedPairs t, p.1 ∈ keys ∧ p.1 / g.layout.rowsPerShard = t.1 := by
    intro p hp
    obtain ⟨hzip, hp⟩ := (mem_tasks ht).2 p ((sortedPairs_perm t).mem_iff.mp hp)
    exact ⟨List.mem_of_getElem? (List.mem_zipIdx_iff_getElem?.mp hzip), hp⟩
  rw [served, servePairs_of_full hfull (fun p hp => ?_) (shows_freshPage g _) 0]
  · refine List.map_congr_left fun p hp => ?_
    rw [storedRow, (hkey p hp).2]
  · obtain ⟨hmem, hshard⟩ := hkey p hp
    exact hshard ▸ hrows p.1 hmem

/-- A stored row that the file holds has its full width. -/
theorem length_storedRow {k : ℕ} (hk : g.HoldsRow k) :
    (g.storedRow k).length = g.layout.rowBytes :=
  length_fileRow hk

/-- With full reads from files that hold the rows, `width` bytes each, the gather succeeds and slot
`i` of the output is the stored row of `keys[i]`. -/
theorem gatherPp_of_full (hfull : g.backend.Full) (hbadge : 0 < g.layout.badgeRows)
    (hwidth : g.layout.width = g.layout.rowBytes) (sched : Schedule JobResult) {keys : List ℕ}
    (hne : keys ≠ []) (hkeys : ∀ k ∈ keys, g.layout.InRange k ∧ g.HoldsRow k) {out : Bytes}
    (hout : out.length = keys.length * g.layout.width) (threads : ℕ) :
    g.gatherPp sched keys out threads = .ok (keys.map g.storedRow).flatten := by
  obtain ⟨out', hok, hlen, hslots⟩ :=
    gatherPp_served sched hne (fun k hk => (hkeys k hk).1) hbadge hwidth hout threads
  have hwide : ∀ p ∈ keys.map g.storedRow, p.length = g.layout.width := by
    intro p hp
    obtain ⟨k, hk, rfl⟩ := List.mem_map.mp hp
    rw [hwidth]
    exact length_storedRow (hkeys k hk).2
  rw [hok]
  congr 1
  refine ext_slots hlen (by rw [length_flatten hwide, List.length_map]) fun i hi => ?_
  obtain ⟨t, ht, -, hp⟩ := exists_task g (List.getElem?_eq_getElem hi)
  have hrow : (i, g.storedRow keys[i]) ∈ g.served t := by
    rw [served_of_full hfull (fun k hk => (hkeys k hk).2) ht]
    exact List.mem_map.mpr ⟨(keys[i], i), (sortedPairs_perm t).mem_iff.mpr hp, rfl⟩
  rw [hslots t ht _ hrow]
  exact (slot_flatten hwide (by simp [hi])).symm

/-- The production gather is exact: over the standard-library backend with reads that are never
short, and shard files that hold their rows, slot `i` of the output is the row of `keys[i]` in its
shard file, for any number of threads and whatever the order in which the jobs finish. -/
theorem gatherPp_exact {os : Pread} (hos : os.Full) (g : BadgeGather)
    {shards rowsPerShard width : ℕ} (hlayout : g.layout = Layout.new shards rowsPerShard width 1)
    (hbackend : g.backend = preadvBackend os)
    (hfiles : ∀ f ∈ g.files, rowsPerShard * width ≤ f.length) {keys : List ℕ} (hne : keys ≠ [])
    (hkeys : ∀ k ∈ keys, k < shards * rowsPerShard) {out : Bytes}
    (hout : out.length = keys.length * width) (threads : ℕ) (sched : Schedule JobResult) :
    ∃ out', g.gatherPp sched keys out threads = .ok out' ∧ out'.length = keys.length * width ∧
      ∀ i k, keys[i]? = some k →
        (out'.drop (i * width)).take width =
          ((g.files.getD (k / rowsPerShard) []).drop (k % rowsPerShard * width)).take width := by
  have hw : g.layout.width = width := by rw [hlayout]; rfl
  have hrb : g.layout.rowBytes = width := by rw [hlayout]; exact Nat.mul_one width
  have hrps : g.layout.rowsPerShard = rowsPerShard := by rw [hlayout]; rfl
  have hfull : g.backend.Full := hbackend ▸ preadvBackend_full hos
  have hbadge : 0 < g.layout.badgeRows := hlayout ▸ Layout.badgeRows_new_pos _ _ _ _
  have hcomplete : g.Complete := fun f hf => by rw [hrps, hrb]; exact hfiles f hf
  have hrange : ∀ k ∈ keys, g.layout.InRange k := fun k hk => by
    rw [hlayout]
    exact hkeys k hk
  have hwide : ∀ p ∈ keys.map g.storedRow, p.length = width := by
    intro p hp
    obtain ⟨k, hk, rfl⟩ := List.mem_map.mp hp
    rw [← hrb]
    exact length_storedRow (hcomplete.holdsRow (hrange k hk))
  have hok := gatherPp_of_full hfull hbadge (hw.trans hrb.symm) sched hne
    (fun k hk => ⟨hrange k hk, hcomplete.holdsRow (hrange k hk)⟩) (by rw [hw, hout]) threads
  refine ⟨_, hok, by rw [length_flatten hwide, List.length_map], fun i k hk => ?_⟩
  have hslot := slot_flatten hwide (i := i) (p := g.storedRow k) (by simp [hk])
  rw [storedRow, fileRow, hrb, hrps] at hslot
  exact hslot

/-- A table of two shards of two three-byte rows. -/
def twoShards : BadgeGather where
  layout := Layout.new 2 2 3 1
  files := [[1, 2, 3, 4, 5, 6], [7, 8, 9, 10, 11, 12]]
  backend := preadvBackend fullPread
  files_length := rfl

theorem gatherPp_exact_twoShards :
    ∃ out', twoShards.gatherPp (Schedule.inOrder _) [3, 0, 3] (List.replicate 9 0) 0 = .ok out' ∧
      out'.length = 3 * 3 ∧ ∀ i k, [3, 0, 3][i]? = some k →
        (out'.drop (i * 3)).take 3 = ((twoShards.files.getD (k / 2) []).drop (k % 2 * 3)).take 3 :=
  gatherPp_exact fullPread_full twoShards rfl rfl (by decide) (by decide) (by decide) rfl 0 _

end BadgeGather

end EngramDB
