import EngramDB.Io.Batch.WholeBadges
import EngramDB.Foundations.Sorting

/-!
# Gathers badge by badge

`gatherPlanned` and `gatherPlan` group the positions of the keys by badge, and copy the rows of a
group out of the buffer of its badge. Whatever the order of the groups, the pieces copied are the
same, and every position gets one (`scatter_groups`):

* `gatherPlanned_eq_ok`: the rows are handed out if their badges are whole;
* `gatherPlan_eq_ok`: a key whose badge is not in the plan gets the bytes at the offset of its row,
  counted from the start of the table (`directRow`), in the file of its shard;
* `reads_of_gatherPlan`: a gather by a plan succeeds only if the file has these bytes, and a row is
  `width` bytes.
-/

namespace EngramDB

open SlotBuffer Chunking Grouping

namespace BadgeGather

variable (g : BadgeGather)

/-- The plan has the badge of the key. -/
def Planned (plan : PrefetchPlan) (k : ℕ) : Prop := (g.badgeOf k).2 ∈ plan.badges (g.badgeOf k).1

instance (plan : PrefetchPlan) (k : ℕ) : Decidable (g.Planned plan k) :=
  inferInstanceAs (Decidable (_ ∈ _))

/-- The bytes at offset `k * rowBytes` of the file of the shard of `k`. -/
def directRow (k : ℕ) : Bytes :=
  slot g.layout.rowBytes (g.files.getD (k / g.layout.rowsPerShard) []) k

/-- The file of the shard of `k` has a row at offset `k * rowBytes`. -/
def HoldsDirect (k : ℕ) : Prop :=
  (k + 1) * g.layout.rowBytes ≤ (g.files.getD (k / g.layout.rowsPerShard) []).length

/-- What a gather by a plan hands out for a key. -/
def planRow (plan : PrefetchPlan) (k : ℕ) : Bytes :=
  if g.Planned plan k then g.rowHead k else g.directRow k

variable {g} {keys idxs : List ℕ} {out : Bytes} {b : Badge}

/-- The row of the key at a position, for that position. -/
def piece (g : BadgeGather) (keys : List ℕ) (i : ℕ) : ℕ × Bytes := (i, g.rowHead (keys.getD i 0))

/-- The positions are those of keys of a whole badge. -/
def OfBadge (g : BadgeGather) (keys idxs : List ℕ) (b : Badge) : Prop :=
  ∀ i ∈ idxs, i < keys.length ∧ g.layout.InRange (keys.getD i 0) ∧ g.WholeBadge (keys.getD i 0) ∧
    g.badgeOf (keys.getD i 0) = b

/-- Indexing the keys at a place of the request returns the key there. -/
theorem index_keys {i : ℕ} (hi : i < keys.length) :
    (Outcome.index keys i : Outcome IoError ℕ) = .ok (keys.getD i 0) := by
  refine Outcome.index_eq_ok ?_
  simp [List.getD, hi]

/-- Copying a group out of its badge puts the row of each of its places into the output, if rows are
at least as wide as their slots. -/
theorem copyGroup_eq_ok (hbadge : 0 < g.layout.badgeRows)
    (hwidth : g.layout.width ≤ g.layout.rowBytes) (hout : out.length = keys.length * g.layout.width)
    (hidxs : g.OfBadge keys idxs b) :
    g.copyGroup keys (g.badgeAt b) out idxs =
      .ok (scatter g.layout.width out (idxs.map (g.piece keys))) := by
  unfold copyGroup
  induction idxs generalizing out with
  | nil => rfl
  | cons i idxs ih =>
    obtain ⟨hi, hk, hwhole, rfl⟩ := hidxs i (by simp)
    have hcopy := copyRow_eq_ok hwhole hbadge hwidth hout hi
    have hlen := hwhole.length_rowHead hbadge hwidth
    have hle : (i + 1) * g.layout.width ≤ keys.length * g.layout.width :=
      Nat.mul_le_mul_right _ hi
    rw [Nat.succ_mul] at hle
    rw [List.foldlM_cons]
    simp only [index_keys hi, locate_eq_badgeOf hk hbadge, bind, Except.bind, hcopy] at ih ⊢
    exact ih (by rw [length_store (by omega), hout]) fun j hj => hidxs j (by simp [hj])

/-- What the pieces of positions keep: the length of the output. -/
theorem length_scatter_piece (hbadge : 0 < g.layout.badgeRows)
    (hwidth : g.layout.width ≤ g.layout.rowBytes) (hout : out.length = keys.length * g.layout.width)
    (hidxs : g.OfBadge keys idxs b) :
    (scatter g.layout.width out (idxs.map (g.piece keys))).length =
      keys.length * g.layout.width := by
  refine length_scatter hout fun p hp => ?_
  obtain ⟨i, hi, rfl⟩ := List.mem_map.mp hp
  exact ⟨(hidxs i hi).1, (hidxs i hi).2.2.1.length_rowHead hbadge hwidth⟩

/-- The cache has the bytes of its badges. -/
def CacheHolds (g : BadgeGather) (cache : List (Badge × Bytes)) : Prop :=
  ∀ b buf, cache.lookup b = some buf → buf = g.badgeAt b

/-- Over reads that are never short, a badge whose rows the file holds is returned, from the cache
or from the file, and the cache stays true to the files. -/
private theorem cachedBadge_eq_ok (hfull : g.backend.Full) (hb : b.1 < g.files.length)
    (hwhole : g.HoldsBadge b) {cache : List (Badge × Bytes)} (hcache : g.CacheHolds cache) :
    ∃ cache', g.cachedBadge cache b = .ok (cache', g.badgeAt b) ∧ g.CacheHolds cache' := by
  unfold cachedBadge
  cases hlookup : cache.lookup b with
  | some buf =>
    obtain rfl := hcache b buf hlookup
    exact ⟨cache, rfl, hcache⟩
  | none =>
    have hread := hfull.readExactAt (g.badgeReq b (g.files.getD b.1 []) b.2)
      (by rw [HoldsBadge, Nat.succ_mul] at hwhole; exact hwhole)
    have hfill := fill_badgeReq (length_zeroBadge g) b b
    refine ⟨(b, g.badgeAt b) :: cache, ?_, fun b' buf hbuf => ?_⟩
    · simp only [index_files hb, hread, bind, Except.bind, pure, Except.pure]
      rw [show (g.badgeReq b (g.files.getD b.1 []) b.2).len = g.layout.badgeBytes from rfl, hfill]
    · rw [List.lookup_cons] at hbuf
      split at hbuf
      next heq =>
        obtain rfl := Option.some.inj hbuf
        rw [beq_iff_eq.mp heq]
      next => exact hcache b' buf hbuf

/-- The groups are groups of keys of whole badges. -/
def OfBadges (g : BadgeGather) (keys : List ℕ) (groups : List BadgeGroup) : Prop :=
  ∀ group ∈ groups, group.1.1 < g.files.length ∧ g.HoldsBadge group.1 ∧
    g.OfBadge keys group.2 group.1

/-- Over reads that are never short, the groups of a plan, one after another with one cache, put the
rows of all their places into the output. -/
private theorem plannedGroups_eq_ok (hfull : g.backend.Full) (hbadge : 0 < g.layout.badgeRows)
    (hwidth : g.layout.width ≤ g.layout.rowBytes) (hout : out.length = keys.length * g.layout.width)
    {groups : List BadgeGroup} (hgroups : g.OfBadges keys groups) {cache : List (Badge × Bytes)}
    (hcache : g.CacheHolds cache) :
    ∃ cache', groups.foldlM (g.plannedGroup keys) (cache, out) =
      .ok (cache', scatter g.layout.width out ((groups.flatMap Prod.snd).map (g.piece keys))) := by
  induction groups generalizing cache out with
  | nil => exact ⟨cache, rfl⟩
  | cons group groups ih =>
    obtain ⟨hfile, hwhole, hidxs⟩ := hgroups group (by simp)
    obtain ⟨cache₁, hcached, hcache₁⟩ := cachedBadge_eq_ok hfull hfile hwhole hcache
    have hcopy := copyGroup_eq_ok hbadge hwidth hout hidxs
    obtain ⟨cache', hrest⟩ := ih (length_scatter_piece hbadge hwidth hout hidxs)
      (fun gr hgr => hgroups gr (by simp [hgr])) hcache₁
    refine ⟨cache', ?_⟩
    rw [List.foldlM_cons, List.flatMap_cons, List.map_append, scatter_append]
    simp only [plannedGroup, hcached, bind, Except.bind, hcopy, pure, Except.pure]
    exact hrest

/-- Over reads that are never short, the groups put the rows of all their places into the output
without a cache, too. -/
private theorem planGroups_eq_ok (hfull : g.backend.Full) (hbadge : 0 < g.layout.badgeRows)
    (hwidth : g.layout.width ≤ g.layout.rowBytes) (hout : out.length = keys.length * g.layout.width)
    {groups : List BadgeGroup} (hgroups : g.OfBadges keys groups) :
    groups.foldlM (g.planGroup keys) out =
      .ok (scatter g.layout.width out ((groups.flatMap Prod.snd).map (g.piece keys))) := by
  induction groups generalizing out with
  | nil => rfl
  | cons group groups ih =>
    obtain ⟨hfile, hwhole, hidxs⟩ := hgroups group (by simp)
    have hread := readBadge_eq_ok hfull hfile hwhole (length_zeroBadge g) group.1
    have hcopy := copyGroup_eq_ok hbadge hwidth hout hidxs
    have hrest := ih (length_scatter_piece hbadge hwidth hout hidxs)
      fun gr hgr => hgroups gr (by simp [hgr])
    rw [List.foldlM_cons, List.flatMap_cons, List.map_append, scatter_append]
    simp only [planGroup, hread, bind, Except.bind, hcopy]
    exact hrest

/-! ### The groups of a request -/

/-- The positions of keys, grouped by badge. -/
def badgeGroups (g : BadgeGather) (keys idxs : List ℕ) : List BadgeGroup :=
  groupBy (fun i => g.badgeOf (keys.getD i 0)) idxs

/-- Pushing positions under the badges of their keys groups them. -/
theorem foldl_push_eq_badgeGroups {ps : List (ℕ × ℕ)} (hps : ∀ p ∈ ps, keys[p.2]? = some p.1) :
    ps.foldl (fun m p => push m (g.badgeOf p.1) p.2) [] = g.badgeGroups keys (ps.map Prod.snd) := by
  rw [badgeGroups, groupBy, List.foldl_map]
  refine List.foldl_ext _ _ _ fun m p hp => ?_
  rw [List.getD, hps p hp]
  rfl

/-- The groups of keys of whole badges, in whatever order, are groups of keys of whole badges. -/
theorem ofBadges_badgeGroups {groups : List BadgeGroup}
    (hperm : groups.Perm (g.badgeGroups keys idxs))
    (hidxs : ∀ i ∈ idxs, i < keys.length ∧ g.layout.InRange (keys.getD i 0) ∧
      g.WholeBadge (keys.getD i 0)) : g.OfBadges keys groups := by
  rintro ⟨b, is⟩ hgroup
  have hmem : (b, is) ∈ g.badgeGroups keys idxs := hperm.mem_iff.mp hgroup
  have hof : g.OfBadge keys is b := by
    intro i hi
    have hidx := (groupBy_perm _ _).mem_iff.mp (List.mem_flatMap.mpr ⟨_, hmem, hi⟩)
    obtain ⟨hlt, hk, hwhole⟩ := hidxs i hidx
    exact ⟨hlt, hk, hwhole, key_of_mem_groupBy hmem hi⟩
  -- the badge is that of any key of the group
  obtain ⟨i, hi⟩ := List.exists_mem_of_ne_nil _ (ne_nil_of_mem_groupBy hmem)
  obtain ⟨-, hk, hwhole, hb⟩ := hof i hi
  exact ⟨hb ▸ badgeOf_lt hk, hb ▸ hwhole, hof⟩

/-- The groups, in whatever order, together have every position once. -/
theorem flatMap_badgeGroups_perm {groups : List BadgeGroup}
    (hperm : groups.Perm (g.badgeGroups keys idxs)) : (groups.flatMap Prod.snd).Perm idxs :=
  (hperm.flatMap_right _).trans (groupBy_perm _ _)

/-- Keys in range are grouped by their badges without a panic. -/
private theorem groupByBadge_eq_ok (hbadge : 0 < g.layout.badgeRows)
    (hkeys : ∀ k ∈ keys, g.layout.InRange k) :
    g.groupByBadge keys = .ok (g.badgeGroups keys (keys.zipIdx.map Prod.snd)) := by
  have hfold : ∀ (ps : List (ℕ × ℕ)) (m : List BadgeGroup), (∀ p ∈ ps, g.layout.InRange p.1) →
      (ps.foldlM (fun groups p => do
        let place ← g.layout.locate p.1
        pure (push groups (place.1, place.2.1) p.2)) m : Outcome IoError _) =
        .ok (ps.foldl (fun m p => push m (g.badgeOf p.1) p.2) m) := by
    intro ps
    induction ps with
    | nil => exact fun m _ => rfl
    | cons p ps ih =>
      intro m hps
      rw [List.foldlM_cons, locate_eq_badgeOf (hps p (by simp)) hbadge]
      exact ih _ fun q hq => hps q (by simp [hq])
  rw [← foldl_push_eq_badgeGroups fun p hp => List.mem_zipIdx_iff_getElem?.mp hp]
  exact hfold keys.zipIdx [] fun p hp =>
    hkeys p.1 (List.mem_of_getElem? (List.mem_zipIdx_iff_getElem?.mp hp))

/-- A plan for keys in range is built without a panic: it has the badge of every key, sorted in its
shard. -/
theorem build_eq_ok {keys : List ℕ} {L : Layout} (hbadge : 0 < L.badgeRows)
    (hkeys : ∀ k ∈ keys, L.InRange k) :
    PrefetchPlan.build keys L =
      .ok (PrefetchPlan.settle ⟨keys.foldl (fun m k => push m (k / L.rowsPerShard)
        (k % L.rowsPerShard / L.badgeRows)) [], 0⟩) := by
  have hfold : ∀ (ks : List ℕ) (m : List (ℕ × List ℕ)), (∀ k ∈ ks, L.InRange k) →
      (ks.foldlM (fun m k => do
        let place ← L.locate k
        pure (push m place.1 place.2.1)) m : Outcome IoError _) =
        .ok (ks.foldl (fun m k => push m (k / L.rowsPerShard)
          (k % L.rowsPerShard / L.badgeRows)) m) := by
    intro ks
    induction ks with
    | nil => exact fun m _ => rfl
    | cons k ks ih =>
      intro m hks
      rw [List.foldlM_cons, Layout.locate_eq_ok (hks k (by simp)).rowsPerShard_pos hbadge]
      exact ih _ fun q hq => hks q (by simp [hq])
  exact congrArg (· >>= fun m => pure (PrefetchPlan.settle ⟨m, 0⟩)) (hfold keys [] hkeys)

/-- Gathering badge by badge hands out the rows, if their badges are whole. -/
theorem gatherPlanned_eq_ok (hfull : g.backend.Full) (hbadge : 0 < g.layout.badgeRows)
    (hwidth : g.layout.width ≤ g.layout.rowBytes)
    (hkeys : ∀ k ∈ keys, g.layout.InRange k ∧ g.WholeBadge k)
    (hout : out.length = keys.length * g.layout.width) (order : IterOrder BadgeGroup) :
    g.gatherPlanned order keys out = .ok (keys.map g.rowHead).flatten := by
  have hidxs : ∀ i ∈ keys.zipIdx.map Prod.snd, i < keys.length ∧
      g.layout.InRange (keys.getD i 0) ∧ g.WholeBadge (keys.getD i 0) := by
    intro i hi
    obtain ⟨p, hp, rfl⟩ := List.mem_map.mp hi
    have hget := List.mem_zipIdx_iff_getElem?.mp hp
    have hgetD : keys.getD p.2 0 = p.1 := by simp [List.getD, hget]
    rw [hgetD]
    exact ⟨(List.getElem?_eq_some_iff.mp hget).1, hkeys p.1 (List.mem_of_getElem? hget)⟩
  -- the groups come in any order, but their indices are those of the keys
  have hperm := order.list_perm (g.badgeGroups keys (keys.zipIdx.map Prod.snd))
  have hempty : g.CacheHolds [] := fun b buf hbuf => by cases hbuf
  obtain ⟨cache', hgroups⟩ := plannedGroups_eq_ok hfull hbadge hwidth hout
    (ofBadges_badgeGroups hperm hidxs) hempty
  rw [gatherPlanned, build_eq_ok hbadge fun k hk => (hkeys k hk).1,
    groupByBadge_eq_ok hbadge fun k hk => (hkeys k hk).1]
  simp only [bind, Except.bind, hgroups, pure, Except.pure]
  congr 1
  -- every index is written once, with the row of its key
  refine scatter_eq_flatten ?_ (by rw [hout, List.length_map]) ?_ ?_
  · intro row hrow
    obtain ⟨k, hk, rfl⟩ := List.mem_map.mp hrow
    exact (hkeys k hk).2.length_rowHead hbadge hwidth
  · intro p hp
    obtain ⟨i, hi, rfl⟩ := List.mem_map.mp hp
    have hlt := (hidxs i ((flatMap_badgeGroups_perm hperm).mem_iff.mp hi)).1
    simp [piece, hlt]
  · intro i hi
    rw [List.length_map] at hi
    rw [List.map_map]
    refine List.mem_map.mpr ⟨i, (flatMap_badgeGroups_perm hperm).mem_iff.mpr ?_, rfl⟩
    simpa [List.zipIdx_map_snd] using hi

/-! ### Plans -/

/-- Sorting the lists of a map sorts what is found under each shard. -/
private theorem lookup_sortDedup (m : List (ℕ × List ℕ)) (shard : ℕ) :
    (PrefetchPlan.sortDedup m).lookup shard = (m.lookup shard).map Sorting.sortDedup := by
  induction m with
  | nil => rfl
  | cons group m ih =>
    obtain ⟨s, l⟩ := group
    rw [PrefetchPlan.sortDedup, List.map_cons, List.lookup_cons, List.lookup_cons]
    cases shard == s with
    | true => rfl
    | false => exact ih

/-- The badges of a shard in a settled plan. -/
theorem badges_settle (plan : PrefetchPlan) (shard : ℕ) :
    plan.settle.badges shard = Sorting.sortDedup (plan.badges shard) := by
  rw [PrefetchPlan.badges, PrefetchPlan.settle, lookup_sortDedup, PrefetchPlan.badges]
  cases plan.shardBadges.lookup shard with
  | none => rfl
  | some l => rfl

/-- A settled plan has the same badges. -/
private theorem mem_badges_settle {plan : PrefetchPlan} {shard badge : ℕ} :
    badge ∈ plan.settle.badges shard ↔ badge ∈ plan.badges shard := by
  rw [badges_settle, Sorting.mem_sortDedup]

/-- The badge of a key that was pushed, or was there before, is found under the shard of the key. -/
private theorem mem_foldl_push {L : Layout} {ks : List ℕ} {m : List (ℕ × List ℕ)} {k : ℕ}
    (h : k ∈ ks ∨ k % L.rowsPerShard / L.badgeRows ∈ (m.lookup (k / L.rowsPerShard)).getD []) :
    k % L.rowsPerShard / L.badgeRows ∈ ((ks.foldl (fun m k => push m (k / L.rowsPerShard)
      (k % L.rowsPerShard / L.badgeRows)) m).lookup (k / L.rowsPerShard)).getD [] := by
  induction ks generalizing m with
  | nil => exact h.resolve_left (by simp)
  | cons k' ks ih =>
    refine ih ?_
    rw [lookup_push, List.mem_cons] at *
    rcases h with (rfl | h) | h
    · simp
    · exact .inl h
    · refine .inr ?_
      split_ifs
      · exact List.mem_append_left _ h
      · exact h

/-- The plan of a request has the badge of every key. -/
theorem planned_of_build {plan : PrefetchPlan} (hbadge : 0 < g.layout.badgeRows)
    (hkeys : ∀ k ∈ keys, g.layout.InRange k) (hplan : PrefetchPlan.build keys g.layout = .ok plan) :
    ∀ k ∈ keys, g.Planned plan k := by
  intro k hk
  rw [build_eq_ok hbadge hkeys] at hplan
  obtain rfl := Except.ok.inj hplan
  exact mem_badges_settle.mpr (mem_foldl_push (.inl hk))

/-- A row buffer, all of it stored. -/
theorem fill_directReq (call : ℕ × ℕ) (f : Bytes) (k : ℕ) :
    (g.directReq call f k).fill (List.replicate g.layout.rowBytes 0) g.layout.rowBytes =
      slot g.layout.rowBytes f k := by
  rw [ReadReq.fill, List.drop_of_length_le (Nat.le_of_eq List.length_replicate), List.append_nil]
  rfl

/-- With full reads, a key whose badge is not planned gets the bytes at the offset of its row, if
its file has them and a row is `width` bytes. -/
private theorem readDirect_eq_ok (hfull : g.backend.Full) {k i : ℕ} (hk : g.layout.InRange k)
    (hdirect : g.HoldsDirect k) (hrb : g.layout.rowBytes = g.layout.width)
    (hout : out.length = keys.length * g.layout.width) (hi : i < keys.length) :
    g.readDirect (g.badgeOf k).1 i k out =
      .ok (store out (i * g.layout.width) (g.directRow k)) := by
  have hread := hfull.readExactAt (g.directReq (0, i) (g.files.getD (g.badgeOf k).1 []) k)
    (by rw [HoldsDirect, Nat.succ_mul] at hdirect; exact hdirect)
  have hfill := fill_directReq (g := g) (0, i) (g.files.getD (g.badgeOf k).1 []) k
  simp only [readDirect, index_files (badgeOf_lt hk), hread, bind, Except.bind, Outcome.ofExcept_ok]
  rw [show (g.directReq (0, i) (g.files.getD (g.badgeOf k).1 []) k).len =
    g.layout.rowBytes from rfl, hfill]
  exact copyFromSlice_slot hout hi ((length_slot hdirect).trans hrb)

/-- A direct read succeeds only if the file has the bytes, and a row is `width` bytes. -/
theorem holdsDirect_of_readDirect {k i : ℕ} {out' : Bytes} (hk : g.layout.InRange k)
    (h : g.readDirect (g.badgeOf k).1 i k out = .ok out') :
    g.HoldsDirect k ∧ g.layout.rowBytes = g.layout.width := by
  simp only [readDirect, index_files (badgeOf_lt hk), bind, Except.bind] at h
  cases hread : (g.backend.readExactAt
      (g.directReq (0, i) (g.files.getD (g.badgeOf k).1 []) k)).2 with
  | error e =>
    rw [hread, Outcome.ofExcept_error] at h
    cases h
  | ok u =>
    have hlen := g.backend.readExactAt_ok hread
    have hle := g.backend.readExactAt_le (g.directReq (0, i) (g.files.getD (g.badgeOf k).1 []) k)
    rw [hlen] at hle
    -- an exact read that returned has found all of its bytes in the file
    have hholds : g.HoldsDirect k := by
      simp only [directReq, ReadReq.available, badgeOf] at hle
      rcases Nat.eq_zero_or_pos g.layout.rowBytes with h0 | hpos
      · simp [HoldsDirect, h0]
      · rw [HoldsDirect, Nat.succ_mul]
        omega
    have hrow : (slot g.layout.rowBytes (g.files.getD (g.badgeOf k).1 []) k).length =
        g.layout.rowBytes := length_slot hholds
    have hfill := fill_directReq (g := g) (0, i) (g.files.getD (g.badgeOf k).1 []) k
    rw [hread, hlen, show (g.directReq (0, i) (g.files.getD (g.badgeOf k).1 []) k).len =
      g.layout.rowBytes from rfl, hfill] at h
    simp only [Outcome.ofExcept_ok, copyFromSlice, hrow, Nat.succ_mul] at h
    split_ifs at h with hcopy
    exact ⟨hholds, by omega⟩

/-- The first half of a gather by a plan: planned keys are grouped, the others are read. -/
private theorem planKeys_eq_ok (hfull : g.backend.Full) (hbadge : 0 < g.layout.badgeRows)
    {plan : PrefetchPlan} {ps : List (ℕ × ℕ)} (hps : ∀ p ∈ ps, p.2 < keys.length ∧
      g.layout.InRange p.1 ∧ (¬ g.Planned plan p.1 →
        g.HoldsDirect p.1 ∧ g.layout.rowBytes = g.layout.width))
    (hout : out.length = keys.length * g.layout.width) (m : List BadgeGroup) :
    ps.foldlM (g.planKey plan) (m, out) =
      .ok ((ps.filter fun p => g.Planned plan p.1).foldl
          (fun m p => push m (g.badgeOf p.1) p.2) m,
        scatter g.layout.width out
          ((ps.filter fun p => ¬ g.Planned plan p.1).map fun p => (p.2, g.directRow p.1))) := by
  induction ps generalizing m out with
  | nil => rfl
  | cons p ps ih =>
    obtain ⟨hi, hk, hdirect⟩ := hps p (by simp)
    have hps' := fun q (hq : q ∈ ps) => hps q (by simp [hq])
    rw [List.foldlM_cons]
    -- a planned key waits in the group of its badge, any other is read and copied at once
    by_cases hplanned : g.Planned plan p.1
    · have hkey : g.planKey plan (m, out) p = .ok (push m (g.badgeOf p.1) p.2, out) := by
        simp only [planKey, locate_eq_badgeOf hk hbadge, bind, Except.bind]
        exact if_pos hplanned
      rw [hkey, List.filter_cons_of_pos (by simpa using hplanned),
        List.filter_cons_of_neg (by simpa using hplanned), List.foldl_cons]
      exact ih hps' hout _
    · obtain ⟨hholds, hrb⟩ := hdirect hplanned
      have hread := readDirect_eq_ok hfull hk hholds hrb hout hi
      have hkey : g.planKey plan (m, out) p =
          .ok (m, store out (p.2 * g.layout.width) (g.directRow p.1)) := by
        simp only [planKey, locate_eq_badgeOf hk hbadge, bind, Except.bind, hread,
          pure, Except.pure]
        exact if_neg hplanned
      have hlen : (g.directRow p.1).length = g.layout.width := (length_slot hholds).trans hrb
      have hle : (p.2 + 1) * g.layout.width ≤ keys.length * g.layout.width :=
        Nat.mul_le_mul_right _ hi
      rw [Nat.succ_mul] at hle
      rw [hkey, List.filter_cons_of_neg (by simpa using hplanned),
        List.filter_cons_of_pos (by simpa using hplanned), List.map_cons, scatter_cons]
      exact ih hps' (by rw [length_store (by omega), hout]) _

/-- A gather by a plan hands out the rows of the planned keys, and what is at the offsets of the
others. -/
theorem gatherPlan_eq_ok (hfull : g.backend.Full) (hbadge : 0 < g.layout.badgeRows)
    (hwidth : g.layout.width ≤ g.layout.rowBytes) {plan : PrefetchPlan}
    (hkeys : ∀ k ∈ keys, g.layout.InRange k ∧ (g.Planned plan k → g.WholeBadge k) ∧
      (¬ g.Planned plan k → g.HoldsDirect k ∧ g.layout.rowBytes = g.layout.width))
    (hout : out.length = keys.length * g.layout.width) (order : IterOrder BadgeGroup) :
    g.gatherPlan order keys plan out = .ok (keys.map (g.planRow plan)).flatten := by
  have hzip : ∀ p ∈ keys.zipIdx, p.2 < keys.length ∧ p.1 ∈ keys ∧ keys.getD p.2 0 = p.1 := by
    intro p hp
    have hget := List.mem_zipIdx_iff_getElem?.mp hp
    exact ⟨(List.getElem?_eq_some_iff.mp hget).1, List.mem_of_getElem? hget, by
      simp [List.getD, hget]⟩
  -- the rows that are handed out have the width of a slot
  have hrow : ∀ k ∈ keys, (g.planRow plan k).length = g.layout.width := by
    intro k hk
    obtain ⟨-, hwhole, hdirect⟩ := hkeys k hk
    unfold planRow
    split_ifs with hplanned
    · exact (hwhole hplanned).length_rowHead hbadge hwidth
    · exact (length_slot (hdirect hplanned).1).trans (hdirect hplanned).2
  -- the keys that are read directly
  have hpieces : ∀ p ∈ (keys.zipIdx.filter fun p => ¬ g.Planned plan p.1).map
      (fun p => (p.2, g.directRow p.1)), p.1 < keys.length ∧ p.2.length = g.layout.width := by
    intro p hp
    obtain ⟨q, hq, rfl⟩ := List.mem_map.mp hp
    obtain ⟨hq, hplanned⟩ := List.mem_filter.mp hq
    obtain ⟨hlt, hmem, -⟩ := hzip q hq
    obtain ⟨hholds, hrb⟩ := (hkeys q.1 hmem).2.2 (by simpa using hplanned)
    exact ⟨hlt, (length_slot hholds).trans hrb⟩
  -- the groups of the planned keys
  have hidxs : ∀ i ∈ (keys.zipIdx.filter fun p => g.Planned plan p.1).map Prod.snd,
      i < keys.length ∧ g.layout.InRange (keys.getD i 0) ∧ g.WholeBadge (keys.getD i 0) := by
    intro i hi
    obtain ⟨p, hp, rfl⟩ := List.mem_map.mp hi
    obtain ⟨hp, hplanned⟩ := List.mem_filter.mp hp
    obtain ⟨hlt, hmem, hgetD⟩ := hzip p hp
    rw [hgetD]
    exact ⟨hlt, (hkeys p.1 hmem).1, (hkeys p.1 hmem).2.1 (by simpa using hplanned)⟩
  have hperm := order.list_perm
    (g.badgeGroups keys ((keys.zipIdx.filter fun p => g.Planned plan p.1).map Prod.snd))
  have hgroups := planGroups_eq_ok hfull hbadge hwidth (length_scatter hout hpieces)
    (ofBadges_badgeGroups hperm hidxs)
  rw [gatherPlan, planKeys_eq_ok hfull hbadge
    (fun p hp => ⟨(hzip p hp).1, (hkeys p.1 (hzip p hp).2.1).1, (hkeys p.1 (hzip p hp).2.1).2.2⟩)
    hout, foldl_push_eq_badgeGroups fun p hp =>
      List.mem_zipIdx_iff_getElem?.mp (List.mem_of_mem_filter hp)]
  simp only [bind, Except.bind, hgroups]
  rw [← scatter_append]
  congr 1
  refine scatter_eq_flatten ?_ (by rw [hout, List.length_map]) ?_ ?_
  · intro row hr
    obtain ⟨k, hk, rfl⟩ := List.mem_map.mp hr
    exact hrow k hk
  · intro p hp
    rcases List.mem_append.mp hp with hp | hp
    · obtain ⟨q, hq, rfl⟩ := List.mem_map.mp hp
      obtain ⟨hq, hplanned⟩ := List.mem_filter.mp hq
      have hget := List.mem_zipIdx_iff_getElem?.mp hq
      rw [List.getElem?_map, hget, Option.map_some, planRow, if_neg (by simpa using hplanned)]
    · obtain ⟨i, hi, rfl⟩ := List.mem_map.mp hp
      obtain ⟨q, hq, rfl⟩ := List.mem_map.mp ((flatMap_badgeGroups_perm hperm).mem_iff.mp hi)
      obtain ⟨hq, hplanned⟩ := List.mem_filter.mp hq
      have hget := List.mem_zipIdx_iff_getElem?.mp hq
      rw [piece, (hzip q hq).2.2, List.getElem?_map, hget, Option.map_some, planRow,
        if_pos (by simpa using hplanned)]
  · intro i hi
    rw [List.length_map] at hi
    have hmem : (keys[i], i) ∈ keys.zipIdx :=
      List.mem_zipIdx_iff_getElem?.mpr (List.getElem?_eq_getElem hi)
    rw [List.map_append, List.mem_append]
    by_cases hplanned : g.Planned plan keys[i]
    · refine .inr ?_
      rw [List.map_map]
      refine List.mem_map.mpr ⟨i, (flatMap_badgeGroups_perm hperm).mem_iff.mpr ?_, rfl⟩
      exact List.mem_map.mpr ⟨_, List.mem_filter.mpr ⟨hmem, by simpa using hplanned⟩, rfl⟩
    · refine .inl ?_
      rw [List.map_map]
      exact List.mem_map.mpr ⟨_, List.mem_filter.mpr ⟨hmem, by simpa using hplanned⟩, rfl⟩

end BadgeGather

end EngramDB
