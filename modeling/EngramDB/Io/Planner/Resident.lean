import EngramDB.Io.Batch.Plans
import EngramDB.Io.Planner

/-!
# Gathers by the plan of a planner

A plan need not have the badge of every key: a planner leaves out the badges that are resident in
its window. `gatherPlan` reads the row of such a key at the offset of the row id, which counts from
the start of the table, in the file of its shard. `planCorrect_iff` says exactly when a gather by a
plan hands out the rows of the files all the same: every key that is not planned has its row at that
offset, too.
-/

namespace EngramDB

open SlotBuffer Chunking Grouping

namespace BadgeGather

variable {g : BadgeGather} {keys : List ℕ} {out : Bytes} {order : IterOrder BadgeGroup}

/-- The first half of a gather by a plan succeeds only if the files hold what is read directly. -/
private theorem reads_of_planKeys (hbadge : 0 < g.layout.badgeRows) {plan : PrefetchPlan}
    {ps : List (ℕ × ℕ)} (hps : ∀ p ∈ ps, g.layout.InRange p.1) {s t : List BadgeGroup × Bytes}
    (h : ps.foldlM (g.planKey plan) s = .ok t) :
    ∀ p ∈ ps, ¬ g.Planned plan p.1 →
      g.HoldsDirect p.1 ∧ g.layout.rowBytes = g.layout.width := by
  induction ps generalizing s with
  | nil => simp
  | cons p ps ih =>
    have hk := hps p (by simp)
    obtain ⟨s', hkey, hrest⟩ := Except.foldlM_cons_eq_ok h
    intro q hq hplanned
    rcases List.mem_cons.mp hq with rfl | hq
    · simp only [planKey, locate_eq_badgeOf hk hbadge, bind, Except.bind] at hkey
      rw [if_neg (show (g.badgeOf q.1).2 ∉ plan.badges (g.badgeOf q.1).1 from hplanned)] at hkey
      split at hkey
      · cases hkey
      next hread => exact holdsDirect_of_readDirect hk hread
    · exact ih (fun q hq => hps q (by simp [hq])) hrest q hq hplanned

/-- A gather by a plan succeeds only if the files hold what is read directly. -/
theorem reads_of_gatherPlan (hbadge : 0 < g.layout.badgeRows)
    (hkeys : ∀ k ∈ keys, g.layout.InRange k) {plan : PrefetchPlan} {rows : Bytes}
    (h : g.gatherPlan order keys plan out = .ok rows) :
    ∀ k ∈ keys, ¬ g.Planned plan k → g.HoldsDirect k ∧ g.layout.rowBytes = g.layout.width := by
  obtain ⟨s, hfirst, -⟩ := Except.bind_eq_ok_iff.mp h
  intro k hk
  obtain ⟨i, hi⟩ := List.mem_iff_getElem?.mp hk
  refine reads_of_planKeys hbadge (fun p hp => ?_) hfirst (k, i)
    (List.mem_zipIdx_iff_getElem?.mpr hi)
  exact hkeys p.1 (List.mem_of_getElem? (List.mem_zipIdx_iff_getElem?.mp hp))

/-- A badge of a shard that is there (`hb`), if it is read (`h`), fills the buffer for it
(`hbuf`). -/
private theorem length_of_readBadge {call : ℕ × ℕ} {b : Badge} {buf buf' : Bytes}
    (hb : b.1 < g.files.length) (hbuf : buf.length = g.layout.badgeBytes)
    (h : g.readBadge call b buf = .ok buf') : buf'.length = g.layout.badgeBytes := by
  simp only [readBadge, index_files hb, bind, Except.bind] at h
  have hle := g.backend.readExactAt_le (g.badgeReq call (g.files.getD b.1 []) b.2)
  split at h
  · cases h
  · obtain rfl := Except.ok.inj h
    rw [ReadReq.length_fill _ (Nat.le_trans hle (Nat.min_le_right _ _)), hbuf]
    rw [hbuf]
    exact Nat.le_trans hle (Nat.min_le_left _ _)

/-- A gather that serves a planned key succeeds only if a badge has `width` bytes. -/
private theorem width_le_of_planGroups (hbadge : 0 < g.layout.badgeRows) {groups : List BadgeGroup}
    (hne : groups ≠ []) (hgroups : ∀ group ∈ groups, group.1.1 < g.files.length ∧ group.2 ≠ [] ∧
      ∀ i ∈ group.2, i < keys.length ∧ g.layout.InRange (keys.getD i 0)) {rows : Bytes}
    (h : groups.foldlM (g.planGroup keys) out = .ok rows) :
    g.layout.width ≤ g.layout.badgeBytes := by
  cases groups with
  | nil => exact absurd rfl hne
  | cons group groups =>
    obtain ⟨hfile, hidxs, hkeys⟩ := hgroups group (by simp)
    obtain ⟨out', hgroup, -⟩ := Except.foldlM_cons_eq_ok h
    obtain ⟨buf, hread, hcopy⟩ := Except.bind_eq_ok_iff.mp hgroup
    have hbuf := length_of_readBadge hfile (length_zeroBadge g) hread
    obtain ⟨i, idxs, hcons⟩ := List.exists_cons_of_ne_nil hidxs
    rw [copyGroup, hcons] at hcopy
    obtain ⟨out'', hrow, -⟩ := Except.foldlM_cons_eq_ok hcopy
    obtain ⟨hi, hk⟩ := hkeys i (by rw [hcons]; simp)
    simp only [index_keys hi, locate_eq_badgeOf hk hbadge, bind, Except.bind, copyRow] at hrow
    split at hrow
    · cases hrow
    next row hslice =>
      rw [sliceRange] at hslice
      split_ifs at hslice with hfits
      omega

/-- A gather by the plan of its keys succeeds only if a badge has `width` bytes. -/
private theorem width_le_of_gatherPlan (hbadge : 0 < g.layout.badgeRows) (hne : keys ≠ [])
    (hkeys : ∀ k ∈ keys, g.layout.InRange k) {plan : PrefetchPlan}
    (hplan : PrefetchPlan.build keys g.layout = .ok plan) {rows : Bytes}
    (h : g.gatherPlan order keys plan out = .ok rows) : g.layout.width ≤ g.layout.badgeBytes := by
  have hplanned := planned_of_build hbadge hkeys hplan
  have hzip : ∀ p ∈ keys.zipIdx, p.2 < keys.length ∧ p.1 ∈ keys ∧ keys.getD p.2 0 = p.1 := by
    intro p hp
    have hget := List.mem_zipIdx_iff_getElem?.mp hp
    exact ⟨(List.getElem?_eq_some_iff.mp hget).1, List.mem_of_getElem? hget, by
      simp [List.getD, hget]⟩
  -- every key is put into a group
  have hfold : ∀ (ps : List (ℕ × ℕ)) (m : List BadgeGroup), (∀ p ∈ ps, p.1 ∈ keys) →
      ps.foldlM (g.planKey plan) (m, out) =
        .ok (ps.foldl (fun m p => push m (g.badgeOf p.1) p.2) m, out) := by
    intro ps
    induction ps with
    | nil => exact fun m _ => rfl
    | cons p ps ih =>
      intro m hps
      have hp := hps p (by simp)
      have hkey : g.planKey plan (m, out) p = .ok (push m (g.badgeOf p.1) p.2, out) := by
        simp only [planKey, locate_eq_badgeOf (hkeys _ hp) hbadge, bind, Except.bind]
        exact if_pos (hplanned _ hp)
      rw [List.foldlM_cons, hkey]
      exact ih _ fun q hq => hps q (by simp [hq])
  rw [gatherPlan, hfold _ _ fun p hp => (hzip p hp).2.1, foldl_push_eq_badgeGroups fun p hp =>
    List.mem_zipIdx_iff_getElem?.mp hp] at h
  have hperm := order.list_perm (g.badgeGroups keys (keys.zipIdx.map Prod.snd))
  refine width_le_of_planGroups hbadge (fun hnil => ?_) (fun group hgroup => ?_) h
  · rw [hnil, List.nil_perm] at hperm
    exact groupBy_ne_nil (by simpa using hne) hperm
  · have hmem := hperm.mem_iff.mp hgroup
    have hidx : ∀ i ∈ group.2, i < keys.length ∧ g.layout.InRange (keys.getD i 0) := by
      intro i hi
      have hi' := (groupBy_perm _ _).mem_iff.mp (List.mem_flatMap.mpr ⟨group, hmem, hi⟩)
      obtain ⟨p, hp, rfl⟩ := List.mem_map.mp hi'
      obtain ⟨hlt, hk, hgetD⟩ := hzip p hp
      exact ⟨hlt, hgetD ▸ hkeys _ hk⟩
    obtain ⟨i, hi⟩ := List.exists_mem_of_ne_nil _ (ne_nil_of_mem_groupBy hmem)
    exact ⟨key_of_mem_groupBy hmem hi ▸ badgeOf_lt (hidx i hi).2, ne_nil_of_mem_groupBy hmem, hidx⟩

/-- A gather by a plan hands out, for every key, the first `width` bytes of its row, as does a
gather by the plan of the keys. -/
def PlanCorrect (g : BadgeGather) (order order' : IterOrder BadgeGroup) (keys : List ℕ)
    (plan : PrefetchPlan) (out : Bytes) : Prop :=
  ∃ complete rows, PrefetchPlan.build keys g.layout = .ok complete ∧
    g.gatherPlan order keys plan out = .ok rows ∧ g.gatherPlan order' keys complete out = .ok rows ∧
    ∀ i k, keys[i]? = some k → slot g.layout.width rows i = g.rowHead k

/-- Every shard file holds the badges of its rows in full. -/
def HoldsBadges (g : BadgeGather) : Prop :=
  ∀ f ∈ g.files, ∀ b, b * g.layout.badgeRows < g.layout.rowsPerShard →
    (b + 1) * g.layout.badgeBytes ≤ f.length

private theorem HoldsBadges.wholeBadge (hfiles : g.HoldsBadges) {k : ℕ} (hk : g.layout.InRange k) :
    g.WholeBadge k := by
  have hshard := badgeOf_lt hk
  have hfile : g.files.getD (g.badgeOf k).1 [] = g.files[(g.badgeOf k).1] := by
    simp [List.getD, hshard]
  rw [WholeBadge, HoldsBadge, hfile]
  refine hfiles _ (List.getElem_mem hshard) _ ?_
  exact Nat.lt_of_le_of_lt (Nat.div_mul_le_self _ _) (Nat.mod_lt k hk.rowsPerShard_pos)

/-- A gather by a plan is correct iff a row has at least `width` bytes, and every key whose badge
the plan leaves out is read right directly. -/
private theorem planCorrect_iff_reads {g : BadgeGather} {shards rowsPerShard width elemBytes : ℕ}
    (hlayout : g.layout = Layout.new shards rowsPerShard width elemBytes) (hfull : g.backend.Full)
    (hfiles : g.HoldsBadges) {keys : List ℕ} (hkeys : ∀ k ∈ keys, k < shards * rowsPerShard)
    {out : Bytes} (hout : out.length = keys.length * width) (plan : PrefetchPlan)
    (order order' : IterOrder BadgeGroup) :
    g.PlanCorrect order order' keys plan out ↔ ∀ k ∈ keys, width ≤ g.layout.rowBytes ∧
      (¬ g.Planned plan k →
        g.layout.rowBytes = width ∧ g.HoldsDirect k ∧ g.directRow k = g.storedRow k) := by
  have hw : g.layout.width = width := by rw [hlayout]; rfl
  have hrb : g.layout.rowBytes = width * elemBytes := by rw [hlayout]; rfl
  have hbadge : 0 < g.layout.badgeRows := hlayout ▸ Layout.badgeRows_new_pos _ _ _ _
  have hrange : ∀ k ∈ keys, g.layout.InRange k := fun k hk => by
    rw [hlayout]
    exact hkeys k hk
  have hwhole : ∀ k ∈ keys, g.WholeBadge k := fun k hk => hfiles.wholeBadge (hrange k hk)
  have hbuild := build_eq_ok hbadge hrange
  have hplanned := planned_of_build hbadge hrange hbuild
  rw [← hw] at hout ⊢
  constructor
  · rintro ⟨complete, rows, hcomplete, hplan, hplan', hrows⟩ k hk
    have hwidth : g.layout.width ≤ g.layout.rowBytes := by
      -- rows without bytes have badges without bytes
      have hle := width_le_of_gatherPlan hbadge (List.ne_nil_of_mem hk) hrange hcomplete hplan'
      rcases Nat.eq_zero_or_pos elemBytes with h0 | hpos
      · rw [Layout.badgeBytes, hrb, h0, Nat.mul_zero, Nat.mul_zero] at hle
        omega
      · rw [hrb, hw]
        exact Nat.le_mul_of_pos_right width hpos
    have hreads := reads_of_gatherPlan hbadge hrange hplan
    refine ⟨hwidth, fun hnot => ?_⟩
    obtain ⟨hdirect, hrow⟩ := hreads k hk hnot
    refine ⟨hrow, hdirect, ?_⟩
    rw [gatherPlan_eq_ok hfull hbadge hwidth (fun k hk => ⟨hrange k hk, fun _ => hwhole k hk,
      hreads k hk⟩) hout order] at hplan
    obtain rfl := Except.ok.inj hplan
    -- the row that is handed out for `k`
    obtain ⟨i, hi⟩ := List.mem_iff_getElem?.mp hk
    have hslot : slot g.layout.width (keys.map (g.planRow plan)).flatten i = g.planRow plan k := by
      refine slot_flatten (fun row hr => ?_) (by rw [List.getElem?_map, hi]; rfl)
      obtain ⟨k', hk', rfl⟩ := List.mem_map.mp hr
      unfold planRow
      split_ifs with hp
      · exact (hwhole k' hk').length_rowHead hbadge hwidth
      · exact (length_slot (hreads k' hk' hp).1).trans (hreads k' hk' hp).2
    rw [hrows i k hi, planRow, if_neg hnot,
      rowHead, List.take_of_length_le (by
        rw [length_storedRow ((hwhole k hk).holdsRow hbadge), hrow])] at hslot
    exact hslot.symm
  · intro h
    have hwidth : ∀ k ∈ keys, g.layout.width ≤ g.layout.rowBytes := fun k hk => (h k hk).1
    rcases List.eq_nil_or_concat' keys with rfl | ⟨_, k₀, hk₀⟩
    · -- without keys, nothing is read
      have hnil : ∀ o p, g.gatherPlan o [] p out = .ok out := by
        intro o p
        have hlist : o.list [] = [] := List.perm_nil.mp (o.list_perm [])
        show (o.list []).foldlM (g.planGroup []) out = _
        rw [hlist]
        rfl
      exact ⟨_, out, hbuild, hnil _ _, hnil _ _, by simp⟩
    have hwidth' := hwidth k₀ (by rw [hk₀]; simp)
    have hgather : g.gatherPlan order keys plan out = .ok (keys.map (g.planRow plan)).flatten :=
      gatherPlan_eq_ok hfull hbadge hwidth' (fun k hk => ⟨hrange k hk, fun _ => hwhole k hk,
        fun hnot => ⟨((h k hk).2 hnot).2.1, ((h k hk).2 hnot).1⟩⟩) hout order
    have hgather' := gatherPlan_eq_ok hfull hbadge hwidth' (fun k hk => ⟨hrange k hk,
      fun _ => hwhole k hk, fun hnot => absurd (hplanned k hk) hnot⟩) hout order'
    -- what is handed out for a key is its row
    have hrow : ∀ k ∈ keys, g.planRow plan k = g.rowHead k := by
      intro k hk
      unfold planRow
      split_ifs with hp
      · rfl
      · obtain ⟨hrow, hdirect, heq⟩ := (h k hk).2 hp
        rw [heq, rowHead, List.take_of_length_le (by
          rw [length_storedRow ((hwhole k hk).holdsRow hbadge), hrow])]
    have hrow' : ∀ k ∈ keys, g.planRow (PrefetchPlan.settle _) k = g.rowHead k := fun k hk =>
      if_pos (hplanned k hk)
    rw [List.map_congr_left hrow] at hgather
    rw [List.map_congr_left hrow'] at hgather'
    refine ⟨_, _, hbuild, hgather, hgather', fun i k hi => ?_⟩
    refine slot_flatten (fun row hr => ?_) (by rw [List.getElem?_map, hi]; rfl)
    obtain ⟨k', hk', rfl⟩ := List.mem_map.mp hr
    exact (hwhole k' hk').length_rowHead hbadge hwidth'

/-- On files that hold whole badges, a gather by any plan is correct iff a row has at least `width`
bytes, and every key whose badge the plan leaves out has its row of `width` bytes at the offset of
the row id in the file of its shard. The plan that a planner makes for the keys leaves out those
whose badge is in the window. -/
theorem planCorrect_iff {g : BadgeGather} {shards rowsPerShard width elemBytes : ℕ}
    (hlayout : g.layout = Layout.new shards rowsPerShard width elemBytes) (hfull : g.backend.Full)
    (hfiles : g.HoldsBadges) {keys : List ℕ} (hkeys : ∀ k ∈ keys, k < shards * rowsPerShard)
    {out : Bytes} (hout : out.length = keys.length * width) (order order' : IterOrder BadgeGroup) :
    (∀ plan, g.PlanCorrect order order' keys plan out ↔ ∀ k ∈ keys, width ≤ g.layout.rowBytes ∧
      (¬ g.Planned plan k →
        g.layout.rowBytes = width ∧ g.HoldsDirect k ∧ g.directRow k = g.storedRow k)) ∧
    ∀ p : StreamingPlanner, ∃ p' plan n, p.advance keys g.layout .empty = .ok (p', plan, n) ∧
      (g.PlanCorrect order order' keys plan out ↔ ∀ k ∈ keys, width ≤ g.layout.rowBytes ∧
        (g.layout.badgeOf k ∈ p.inWindow →
          g.layout.rowBytes = width ∧ g.HoldsDirect k ∧ g.directRow k = g.storedRow k)) := by
  have hplan := fun plan => planCorrect_iff_reads hlayout hfull hfiles hkeys hout plan order order'
  refine ⟨hplan, fun p => ?_⟩
  have hbadge : 0 < g.layout.badgeRows := hlayout ▸ Layout.badgeRows_new_pos _ _ _ _
  have hrange : ∀ k ∈ keys, g.layout.InRange k := fun k hk => by
    rw [hlayout]
    exact hkeys k hk
  obtain ⟨p', plan, n, hadvance, -, hplanned⟩ := p.advance_eq_ok hbadge hrange
  refine ⟨p', plan, n, hadvance, (hplan plan).trans ?_⟩
  refine forall₂_congr fun k hk => and_congr_right fun _ => ?_
  have hresident : ¬ g.Planned plan k ↔ g.layout.badgeOf k ∈ p.inWindow :=
    (not_congr (hplanned k hk)).trans not_not
  rw [hresident]

/-- A table of two shards of one one-byte row, each with the rest of its badge. -/
def oneRowShards : BadgeGather where
  layout := Layout.new 2 1 1 1
  files := [7 :: List.replicate 4095 0, 9 :: List.replicate 4095 0]
  backend := preadvBackend fullPread
  files_length := rfl

private theorem holdsBadges_oneRowShards : oneRowShards.HoldsBadges := by
  intro f hf b hb
  obtain rfl : b = 0 := by
    have hb' : b * 4096 < 1 := hb
    omega
  have hlen : f.length = 4096 := by
    simp only [oneRowShards, List.mem_cons, List.not_mem_nil, or_false] at hf
    rcases hf with rfl | rfl <;> rw [List.length_cons, List.length_replicate]
  rw [hlen]
  decide

theorem planCorrect_iff_oneRowShards :
    (∀ plan, oneRowShards.PlanCorrect (.asPushed _) (.asPushed _) [1] plan [0] ↔
      ∀ k ∈ [1], 1 ≤ oneRowShards.layout.rowBytes ∧ (¬ oneRowShards.Planned plan k →
        oneRowShards.layout.rowBytes = 1 ∧ oneRowShards.HoldsDirect k ∧
          oneRowShards.directRow k = oneRowShards.storedRow k)) ∧
    ∀ p : StreamingPlanner, ∃ p' plan n,
      p.advance [1] oneRowShards.layout .empty = .ok (p', plan, n) ∧
      (oneRowShards.PlanCorrect (.asPushed _) (.asPushed _) [1] plan [0] ↔
        ∀ k ∈ [1], 1 ≤ oneRowShards.layout.rowBytes ∧
          (oneRowShards.layout.badgeOf k ∈ p.inWindow →
            oneRowShards.layout.rowBytes = 1 ∧ oneRowShards.HoldsDirect k ∧
              oneRowShards.directRow k = oneRowShards.storedRow k)) :=
  planCorrect_iff (g := oneRowShards) rfl (preadvBackend_full fullPread_full)
    holdsBadges_oneRowShards (by decide) rfl _ _

/-- Two tokens ask for the only row of the second shard. For the second token the badge is resident,
and the gather by its plan reads the byte behind the row. -/
theorem not_planCorrect_resident :
    ∃ p plan p' plan', (StreamingPlanner.new 10).advance [1] oneRowShards.layout .empty =
        .ok (p, plan, 1) ∧
      p.advance [1] oneRowShards.layout .empty = .ok (p', plan', 0) ∧
      oneRowShards.storedRow 1 = [9] ∧
      oneRowShards.gatherPlan (.asPushed _) [1] plan' [0] = .ok [0] ∧
      ¬ oneRowShards.PlanCorrect (.asPushed _) (.asPushed _) [1] plan' [0] := by
  have hdirect : oneRowShards.HoldsDirect 1 := by
    show 2 ≤ (9 :: List.replicate 4095 0).length
    rw [List.length_cons, List.length_replicate]
    decide
  have hgather : oneRowShards.gatherPlan (.asPushed _) [1] .empty [0] = .ok [0] := by
    rw [gatherPlan_eq_ok (preadvBackend_full fullPread_full) (by decide) (by decide)
      (fun k hk => ?_) rfl (.asPushed _)]
    · rfl
    · obtain rfl := List.mem_singleton.mp hk
      exact ⟨by decide, fun hp => absurd hp (by decide), fun _ => ⟨hdirect, rfl⟩⟩
  refine ⟨_, _, _, .empty, rfl, rfl, rfl, hgather, ?_⟩
  rintro ⟨complete, rows, -, hplan, -, hrows⟩
  obtain rfl := Except.ok.inj (hgather.symm.trans hplan)
  have hrow := hrows 0 1 rfl
  cases hrow

end BadgeGather

end EngramDB
