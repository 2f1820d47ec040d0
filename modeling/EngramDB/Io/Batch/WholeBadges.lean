import EngramDB.Io.Batch.Badges
import EngramDB.Io.Batch.Exact

/-!
# Gathers from whole badges

A key has a whole badge (`WholeBadge`) when its shard file holds the badge in full. Then a read of
the badge succeeds, when no read is short, and the row of the key in the badge buffer is its row of
the file (`copyRow_eq_ok`).
-/

namespace EngramDB

open SlotBuffer Chunking Grouping

/-- Copying a piece that fits into a slot of the output stores it there. -/
theorem copyFromSlice_slot {ε : Type} {out src : Bytes} {n w i : ℕ} (hout : out.length = n * w)
    (hi : i < n) (hsrc : src.length = w) :
    (copyFromSlice out (i * w) ((i + 1) * w) src : Outcome ε Bytes) =
      .ok (store out (i * w) src) := by
  have hle : (i + 1) * w ≤ n * w := Nat.mul_le_mul_right w hi
  have hmul : (i + 1) * w = i * w + w := Nat.succ_mul i w
  rw [copyFromSlice, if_pos (by omega)]

namespace BadgeGather

variable (g : BadgeGather)

/-- The badge of a key. -/
def badgeOf (k : ℕ) : Badge :=
  (k / g.layout.rowsPerShard, k % g.layout.rowsPerShard / g.layout.badgeRows)

/-- The file holds the badge in full. -/
def HoldsBadge (b : Badge) : Prop :=
  (b.2 + 1) * g.layout.badgeBytes ≤ (g.files.getD b.1 []).length

/-- The file holds the badge of the key in full. -/
def WholeBadge (k : ℕ) : Prop := g.HoldsBadge (g.badgeOf k)

/-- The bytes of a badge in the file. -/
def badgeAt (b : Badge) : Bytes := slot g.layout.badgeBytes (g.files.getD b.1 []) b.2

/-- The bytes of a row that a gather hands out. -/
def rowHead (k : ℕ) : Bytes := (g.storedRow k).take g.layout.width

variable {g} {b : Badge} {buf out : Bytes} {keys : List ℕ} {k : ℕ}

/-- A badge that the file holds has the bytes of a badge. -/
theorem length_badgeAt (h : g.HoldsBadge b) : (g.badgeAt b).length = g.layout.badgeBytes :=
  length_slot h

/-- A key in range, in a layout with rows in its badges, is located in its badge without a panic. -/
theorem locate_eq_badgeOf {ε : Type} (hk : g.layout.InRange k) (hbadge : 0 < g.layout.badgeRows) :
    (g.layout.locate k : Outcome ε _) = .ok ((g.badgeOf k).1, (g.badgeOf k).2,
      k % g.layout.rowsPerShard % g.layout.badgeRows) :=
  Layout.locate_eq_ok hk.rowsPerShard_pos hbadge k

/-- The badge of a key in range lies in a file of the table. -/
theorem badgeOf_lt (hk : g.layout.InRange k) : (g.badgeOf k).1 < g.files.length :=
  g.files_length ▸ hk.shard_lt

/-- A key with a whole badge has its row in the file. -/
theorem WholeBadge.holdsRow (h : g.WholeBadge k) (hbadge : 0 < g.layout.badgeRows) :
    g.HoldsRow k := by
  refine Nat.le_trans ?_ h
  have hrow := Nat.lt_div_mul_add (a := k % g.layout.rowsPerShard) hbadge
  rw [byteOff, ← Nat.succ_mul, Layout.badgeBytes, ← Nat.mul_assoc]
  refine Nat.mul_le_mul_right _ ?_
  rw [badgeOf, Nat.succ_mul]
  exact hrow

/-- Files that consist of whole badges and have all rows hold the badge of every key in range. -/
theorem wholeBadge_of_dvd (hk : g.layout.InRange k)
    (hfiles : ∀ f ∈ g.files, g.layout.badgeBytes ∣ f.length ∧
      g.layout.rowsPerShard * g.layout.rowBytes ≤ f.length) : g.WholeBadge k := by
  have hshard := badgeOf_lt hk
  have hfile : g.files.getD (g.badgeOf k).1 [] = g.files[(g.badgeOf k).1] := by
    simp [List.getD, hshard]
  obtain ⟨⟨m, hm⟩, hlen⟩ := hfiles _ (List.getElem_mem hshard)
  have hrow := Nat.mod_lt k hk.rowsPerShard_pos
  rw [WholeBadge, HoldsBadge, hfile]
  rcases Nat.eq_zero_or_pos g.layout.rowBytes with hzero | hpos
  · simp [Layout.badgeBytes, hzero]
  · -- the file has `m` badges, and the badge of the row is one of them
    have hlt : k % g.layout.rowsPerShard < g.layout.badgeRows * m := by
      refine Nat.lt_of_lt_of_le hrow (Nat.le_of_mul_le_mul_right ?_ hpos)
      rw [hm, Layout.badgeBytes] at hlen
      calc g.layout.rowsPerShard * g.layout.rowBytes
          ≤ g.layout.badgeRows * g.layout.rowBytes * m := hlen
        _ = g.layout.badgeRows * m * g.layout.rowBytes := by
          rw [Nat.mul_assoc, Nat.mul_assoc, Nat.mul_comm m]
    rw [hm, Nat.mul_comm _ m]
    exact Nat.mul_le_mul_right _ (Nat.div_lt_of_lt_mul hlt)

/-- The first bytes of a row in a whole badge are as many as the slot is wide, if rows are at least
as wide. -/
theorem WholeBadge.length_rowHead (h : g.WholeBadge k) (hbadge : 0 < g.layout.badgeRows)
    (hwidth : g.layout.width ≤ g.layout.rowBytes) : (g.rowHead k).length = g.layout.width := by
  rw [rowHead, List.length_take, length_storedRow (h.holdsRow hbadge), Nat.min_eq_left hwidth]

/-! ### Badge reads -/

/-- The buffer before the first load has the bytes of a badge. -/
@[simp]
theorem length_zeroBadge (g : BadgeGather) : g.zeroBadge.length = g.layout.badgeBytes :=
  List.length_replicate

/-- Indexing the files at a shard that is there returns its file. -/
theorem index_files {s : ℕ} (hs : s < g.files.length) :
    (Outcome.index g.files s : Outcome IoError Bytes) = .ok (g.files.getD s []) := by
  refine Outcome.index_eq_ok ?_
  simp [List.getD, hs]

/-- A read that fills the whole buffer of a badge (`hbuf`) leaves the badge in it. -/
theorem fill_badgeReq (hbuf : buf.length = g.layout.badgeBytes) (call : ℕ × ℕ) (b : Badge) :
    (g.badgeReq call (g.files.getD b.1 []) b.2).fill buf g.layout.badgeBytes = g.badgeAt b := by
  rw [ReadReq.fill, List.drop_of_length_le (Nat.le_of_eq hbuf), List.append_nil]
  rfl

/-- With full reads (`hfull`), a badge of a shard that is there (`hb`), whose rows the file holds
(`hwhole`), is read as the file has it. -/
theorem readBadge_eq_ok (hfull : g.backend.Full) (hb : b.1 < g.files.length)
    (hwhole : g.HoldsBadge b) (hbuf : buf.length = g.layout.badgeBytes) (call : ℕ × ℕ) :
    g.readBadge call b buf = .ok (g.badgeAt b) := by
  have hread := hfull.readExactAt (g.badgeReq call (g.files.getD b.1 []) b.2)
    (by rw [HoldsBadge, Nat.succ_mul] at hwhole; exact hwhole)
  simp only [readBadge, index_files hb, hread, bind, Except.bind, Outcome.ofExcept_ok, pure,
    Except.pure]
  exact congrArg Except.ok (fill_badgeReq hbuf call b)

/-- A badge is read only if the file holds it. -/
private theorem holdsBadge_of_readBadge {call : ℕ × ℕ} {buf' : Bytes} (hb : b.1 < g.files.length)
    (h : g.readBadge call b buf = .ok buf') : g.HoldsBadge b := by
  simp only [readBadge, index_files hb, bind, Except.bind] at h
  cases hread : (g.backend.readExactAt (g.badgeReq call (g.files.getD b.1 []) b.2)).2 with
  | error e =>
    rw [hread, Outcome.ofExcept_error] at h
    cases h
  | ok u =>
    have hlen := g.backend.readExactAt_ok hread
    have hle := g.backend.readExactAt_le (g.badgeReq call (g.files.getD b.1 []) b.2)
    rw [hlen] at hle
    simp only [badgeReq, ReadReq.available] at hle
    rcases Nat.eq_zero_or_pos g.layout.badgeBytes with h0 | hpos
    · simp [HoldsBadge, h0]
    · rw [HoldsBadge, Nat.succ_mul]
      omega

/-- With a whole badge in the buffer, the row of the key is copied. -/
theorem copyRow_eq_ok (h : g.WholeBadge k) (hbadge : 0 < g.layout.badgeRows)
    (hwidth : g.layout.width ≤ g.layout.rowBytes) {n i : ℕ} (hout : out.length = n * g.layout.width)
    (hi : i < n) :
    g.copyRow out i (g.badgeAt (g.badgeOf k)) (k % g.layout.rowsPerShard % g.layout.badgeRows) =
      .ok (store out (i * g.layout.width) (g.rowHead k)) := by
  have hin := Nat.mod_lt (k % g.layout.rowsPerShard) hbadge
  -- the row lies in the badge
  have hle : (k % g.layout.rowsPerShard % g.layout.badgeRows + 1) * g.layout.rowBytes ≤
      g.layout.badgeBytes := Nat.mul_le_mul_right _ hin
  rw [Nat.succ_mul] at hle
  have hrow : slot g.layout.rowBytes (g.badgeAt (g.badgeOf k))
      (k % g.layout.rowsPerShard % g.layout.badgeRows) = g.storedRow k := by
    rw [badgeAt, Layout.badgeBytes, slot_slot _ _ hin, badgeOf, Nat.div_add_mod']
    rfl
  have hslice : (sliceRange (g.badgeAt (g.badgeOf k))
      (k % g.layout.rowsPerShard % g.layout.badgeRows * g.layout.rowBytes)
      (k % g.layout.rowsPerShard % g.layout.badgeRows * g.layout.rowBytes + g.layout.width) :
      Outcome IoError Bytes) = .ok (g.rowHead k) := by
    rw [sliceRange, if_pos (by rw [length_badgeAt h]; omega), rowHead, ← hrow, slot, List.take_take,
      Nat.min_eq_left hwidth, Nat.add_sub_cancel_left]
  simp only [copyRow, hslice, bind, Except.bind]
  exact copyFromSlice_slot hout hi (h.length_rowHead hbadge hwidth)

/-! ### Key after key -/

/-- The buffer holds the badge that it was read for. -/
structure BadgeBuf.Holds (g : BadgeGather) (c : BadgeBuf) : Prop where
  /-- The buffer has the size of a badge. -/
  length_buf : c.buf.length = g.layout.badgeBytes
  /-- It has the bytes of the badge. -/
  eq_badgeAt : ∀ b, c.last = some b → c.buf = g.badgeAt b

/-- Over reads that are never short, a badge that the file holds is loaded into the buffer, or is
there already, and the buffer stays true to the files. -/
private theorem loadBadge_eq_ok (hfull : g.backend.Full) (hb : b.1 < g.files.length)
    (hwhole : g.HoldsBadge b) {c : BadgeBuf} (hc : BadgeBuf.Holds g c) (call : ℕ × ℕ) :
    ∃ c', g.loadBadge c call b = .ok c' ∧ BadgeBuf.Holds g c' ∧ c'.buf = g.badgeAt b := by
  unfold loadBadge
  split_ifs with hlast
  · refine ⟨⟨some b, g.badgeAt b⟩, ?_, ⟨length_badgeAt hwhole, fun b' hb' => ?_⟩, rfl⟩
    · rw [readBadge_eq_ok hfull hb hwhole hc.length_buf]
      rfl
    · rw [Option.some.inj hb']
  · exact ⟨c, rfl, hc, hc.eq_badgeAt b (not_not.mp hlast)⟩

/-- The pieces that a gather puts into the output for keys from position `i` on. -/
def rowPieces (g : BadgeGather) (i : ℕ) (ks : List ℕ) : List (ℕ × Bytes) :=
  (ks.zipIdx i).map fun p => (p.2, g.rowHead p.1)

/-- Over reads that are never short, a thread that goes through its keys, all of them in whole
badges, from place `i` on puts their rows into the slots from `i` on. -/
private theorem naiveFrom_eq_ok (hfull : g.backend.Full) (hbadge : 0 < g.layout.badgeRows)
    (hwidth : g.layout.width ≤ g.layout.rowBytes) (thread : ℕ) {n : ℕ} {ks : List ℕ} {c : BadgeBuf}
    (hc : BadgeBuf.Holds g c) {i : ℕ} (hi : i + ks.length ≤ n)
    (hout : out.length = n * g.layout.width)
    (hks : ∀ k ∈ ks, g.layout.InRange k ∧ g.WholeBadge k) :
    g.naiveFrom thread c out i ks =
      (scatter g.layout.width out (g.rowPieces i ks), .ok ()) := by
  induction ks generalizing c out i with
  | nil => rfl
  | cons k ks ih =>
    obtain ⟨hk, hwhole⟩ := hks k (by simp)
    rw [List.length_cons] at hi
    obtain ⟨c', hload, hc', hbuf⟩ := loadBadge_eq_ok hfull (badgeOf_lt hk) hwhole hc (thread, i)
    have hcopy := copyRow_eq_ok hwhole hbadge hwidth hout (i := i) (by omega)
    have hkey : g.naiveKey thread c out i k =
        .ok (c', store out (i * g.layout.width) (g.rowHead k)) := by
      simp only [naiveKey, locate_eq_badgeOf hk hbadge, bind, Except.bind, hload, hbuf, hcopy, pure,
        Except.pure]
    have hlen := hwhole.length_rowHead hbadge hwidth
    have hle : (i + 1) * g.layout.width ≤ n * g.layout.width := Nat.mul_le_mul_right _ (by omega)
    rw [Nat.succ_mul] at hle
    simp only [naiveFrom, hkey]
    rw [ih hc' (by omega) (by rw [length_store (by omega), hout]) fun k' hk' =>
      hks k' (by simp [hk'])]
    rfl

/-- The pieces for the keys of a request leave the rows one after another. -/
private theorem scatter_rowPieces (hrows : ∀ k ∈ keys, (g.rowHead k).length = g.layout.width)
    (hout : out.length = keys.length * g.layout.width) :
    scatter g.layout.width out (g.rowPieces 0 keys) = (keys.map g.rowHead).flatten := by
  refine scatter_eq_flatten ?_ (by rw [hout, List.length_map]) ?_ ?_
  · intro row hrow
    obtain ⟨k, hk, rfl⟩ := List.mem_map.mp hrow
    exact hrows k hk
  · intro p hp
    obtain ⟨q, hq, rfl⟩ := List.mem_map.mp hp
    rw [List.getElem?_map, List.mem_zipIdx_iff_getElem?.mp hq]
    rfl
  · intro i hi
    rw [rowPieces, List.map_map]
    simpa [Function.comp_def, List.zipIdx_map_snd] using hi

/-- Gathering key after key hands out the rows, if their badges are whole. -/
theorem gatherNaive_eq_ok (hfull : g.backend.Full) (hbadge : 0 < g.layout.badgeRows)
    (hwidth : g.layout.width ≤ g.layout.rowBytes) (thread : ℕ)
    (hkeys : ∀ k ∈ keys, g.layout.InRange k ∧ g.WholeBadge k)
    (hout : out.length = keys.length * g.layout.width) :
    g.gatherNaive thread keys out = ((keys.map g.rowHead).flatten, .ok ()) := by
  have hc : BadgeBuf.Holds g ⟨none, g.zeroBadge⟩ :=
    ⟨length_zeroBadge g, fun b hb => by cases hb⟩
  rw [gatherNaive, naiveFrom_eq_ok hfull hbadge hwidth thread hc (by rw [Nat.zero_add]) hout hkeys,
    scatter_rowPieces (fun k hk => (hkeys k hk).2.length_rowHead hbadge hwidth) hout]

/-- Gathering key after key succeeds only if the badges are whole. -/
theorem wholeBadge_of_naiveFrom (hbadge : 0 < g.layout.badgeRows) {thread : ℕ} {ks : List ℕ}
    {c : BadgeBuf} (hc : ∀ b, c.last = some b → g.HoldsBadge b) {i : ℕ}
    (hks : ∀ k ∈ ks, g.layout.InRange k) (h : (g.naiveFrom thread c out i ks).2 = .ok ()) :
    ∀ k ∈ ks, g.WholeBadge k := by
  induction ks generalizing c out i with
  | nil => simp
  | cons k ks ih =>
    have hk := hks k (by simp)
    simp only [naiveFrom] at h
    split at h
    next c' out' hkey =>
      simp only [naiveKey, locate_eq_badgeOf hk hbadge, bind, Except.bind] at hkey
      split at hkey
      · cases hkey
      next c₁ hload =>
        split at hkey
        · cases hkey
        next out₁ _ =>
          obtain ⟨rfl, rfl⟩ := Prod.mk.inj (Except.ok.inj hkey)
          -- the badge was read now, or is the last one
          have hlast : c₁.last = some (g.badgeOf k) ∧ g.HoldsBadge (g.badgeOf k) := by
            unfold loadBadge at hload
            split_ifs at hload with hlast
            · obtain ⟨buf, hread, hbuf⟩ := Except.bind_eq_ok_iff.mp hload
              obtain rfl := Except.ok.inj hbuf
              exact ⟨rfl, holdsBadge_of_readBadge (badgeOf_lt hk) hread⟩
            · obtain rfl := Except.ok.inj hload
              exact ⟨not_not.mp hlast, hc _ (not_not.mp hlast)⟩
          intro k' hk'
          rcases List.mem_cons.mp hk' with rfl | hk'
          · exact hlast.2
          · refine ih (fun b hb => ?_) (fun k' hk' => hks k' (by simp [hk'])) h k' hk'
            rw [hlast.1] at hb
            exact Option.some.inj hb ▸ hlast.2
    next e _ => cases h

/-! ### In threads -/

/-- Gathering in chunks hands out the rows, if their badges are whole. -/
private theorem gatherChunks_eq_ok (hfull : g.backend.Full) (hbadge : 0 < g.layout.badgeRows)
    (hwidth : g.layout.width ≤ g.layout.rowBytes) {chunkKeys : ℕ} (hchunk : 0 < chunkKeys)
    (hw : 0 < g.layout.width) (hkeys : ∀ k ∈ keys, g.layout.InRange k ∧ g.WholeBadge k)
    (hout : out.length = keys.length * g.layout.width) :
    g.gatherChunks chunkKeys keys out = ((keys.map g.rowHead).flatten, .ok ()) := by
  have hpair := forall₂_chunks hchunk hw hout
  -- every thread hands out the rows of its keys
  have hparts :
      ∀ p ∈ ((chunks chunkKeys keys).zip (chunks (chunkKeys * g.layout.width) out)).zipIdx,
        g.gatherNaive p.2 p.1.1 p.1.2 = ((p.1.1.map g.rowHead).flatten, .ok ()) := by
    intro p hp
    have hzip := List.fst_mem_of_mem_zipIdx hp
    refine gatherNaive_eq_ok hfull hbadge hwidth _ (fun k hk => hkeys k ?_) ?_
    · exact mem_of_mem_chunks hchunk (List.of_mem_zip hzip).1 hk
    · exact (List.forall₂_iff_zip.mp hpair).2 hzip
  have hlen := hpair.length_eq
  simp only [gatherChunks]
  rw [List.map_congr_left hparts]
  simp only [List.map_map, Function.comp_def, List.length_map, List.length_zipIdx, List.length_zip,
    hlen, Nat.min_self, List.drop_length, List.flatten_nil, List.append_nil]
  have hany : (((chunks chunkKeys keys).zip (chunks (chunkKeys * g.layout.width) out)).zipIdx.map
      fun p => ((p.1.1.map g.rowHead).flatten, (.ok () : Outcome IoError Unit))).any
      (fun part => Outcome.isPanic part.2) = false := by
    simp [Outcome.isPanic]
  rw [hany]
  have hflat : ((chunks chunkKeys keys).zip (chunks (chunkKeys * g.layout.width) out)).zipIdx.map
      (fun p => (p.1.1.map g.rowHead).flatten) =
      (chunks chunkKeys keys).map fun ks => (ks.map g.rowHead).flatten := by
    calc _ = (((((chunks chunkKeys keys).zip
          (chunks (chunkKeys * g.layout.width) out)).zipIdx).map Prod.fst).map Prod.fst).map
            fun ks => (ks.map g.rowHead).flatten := by
          rw [List.map_map, List.map_map]
          rfl
      _ = _ := by rw [List.zipIdx_map_fst, List.map_fst_zip (Nat.le_of_eq hlen)]
  rw [hflat]
  refine Prod.ext ?_ rfl
  calc ((chunks chunkKeys keys).map fun ks => (ks.map g.rowHead).flatten).flatten
      = (((chunks chunkKeys keys).flatten).map g.rowHead).flatten := by
        rw [List.map_flatten, List.flatten_flatten, List.map_map]
        rfl
    _ = (keys.map g.rowHead).flatten := by rw [flatten_chunks hchunk]

/-- Gathering in threads hands out the rows, if their badges are whole and rows are not empty. -/
theorem gatherParallel_eq_ok (hfull : g.backend.Full) (hbadge : 0 < g.layout.badgeRows)
    (hwidth : g.layout.width ≤ g.layout.rowBytes) {threads : ℕ}
    (hw : g.layout.width = 0 → threads ≤ 1 ∨ keys.length ≤ 1024)
    (hkeys : ∀ k ∈ keys, g.layout.InRange k ∧ g.WholeBadge k)
    (hout : out.length = keys.length * g.layout.width) :
    g.gatherParallel keys out threads = ((keys.map g.rowHead).flatten, .ok ()) := by
  by_cases hsmall : threads ≤ 1 ∨ keys.length ≤ 1024
  · rw [gatherParallel, if_pos hsmall]
    exact gatherNaive_eq_ok hfull hbadge hwidth 0 hkeys hout
  · have hchunk : 0 < (keys.length + threads - 1) / threads := Nat.div_pos (by omega) (by omega)
    have hpos : 0 < g.layout.width := Nat.pos_of_ne_zero fun h0 => hsmall (hw h0)
    simp only [gatherParallel, if_neg hsmall, if_neg (Nat.mul_pos hchunk hpos).ne']
    exact gatherChunks_eq_ok hfull hbadge hwidth hchunk hpos hkeys hout

end BadgeGather

end EngramDB
