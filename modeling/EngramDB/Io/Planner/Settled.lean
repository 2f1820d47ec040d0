import EngramDB.Io.Batch.Plans
import EngramDB.Io.Planner

/-!
# Planning token by token

The plans of a stream are collected in one plan: the planner advances by the rows of one token after
another. A badge in the window is not planned again, one that has left it is, so the collected plan
depends on the size of the window and on how the rows are cut into tokens. `settle` forgets both:
the settled plan is the one that `build` makes of all the rows at once (`settle_advanceAll`).

`Tracks` relates the collected plan with the map of `build`: they have the same shards and, but for
repeats, the same badges, and what is in the window has been planned.
-/

namespace EngramDB

open Grouping

namespace PrefetchPlan

/-- The round of `build`: the badge of a row is pushed under its shard. -/
def pushRow (L : Layout) (m : List (ℕ × List ℕ)) (k : ℕ) : Outcome IoError (List (ℕ × List ℕ)) := do
  let (shard, badge, _) ← L.locate k
  pure (push m shard badge)

/-- With rows in a shard and in a badge, every row has a badge. -/
private theorem exists_pushRows_eq_ok {L : Layout} (hrows : 0 < L.rowsPerShard)
    (hbadge : 0 < L.badgeRows)
    (keys : List ℕ) (m : List (ℕ × List ℕ)) : ∃ m', keys.foldlM (pushRow L) m = .ok m' := by
  induction keys generalizing m with
  | nil => exact ⟨m, rfl⟩
  | cons k keys ih =>
    have hlocate : (L.locate k : Outcome IoError _) = .ok _ := Layout.locate_eq_ok hrows hbadge k
    rw [List.foldlM_cons, pushRow, hlocate]
    exact ih _

/-- The settled plan of a map. -/
def ofMap (m : List (ℕ × List ℕ)) : PrefetchPlan := ⟨sortDedup m, count (sortDedup m)⟩

private theorem build_eq_map (keys : List ℕ) (L : Layout) :
    build keys L = (keys.foldlM (pushRow L) []).map ofMap := by
  have hbuild : build keys L = keys.foldlM (pushRow L) [] >>= fun m => pure (ofMap m) := rfl
  rw [hbuild]
  cases keys.foldlM (pushRow L) [] with
  | error e => rfl
  | ok m => rfl

/-- Settling forgets the order of the badges and their repeats. -/
private theorem sortDedup_eq_of_alike {m m' : List (ℕ × List ℕ)} (h : Alike m m') :
    sortDedup m = sortDedup m' := by
  induction h with
  | nil => rfl
  | @cons g g' m m' hg hm ih =>
    have hgroup : Sorting.sortDedup g.2 = Sorting.sortDedup g'.2 := Sorting.sortDedup_congr hg.2
    rw [sortDedup, sortDedup, List.map_cons, List.map_cons]
    exact congrArg₂ List.cons (Prod.ext hg.1 hgroup) ih

/-- A settled map is settled. -/
theorem sortDedup_sortDedup (m : List (ℕ × List ℕ)) : sortDedup (sortDedup m) = sortDedup m := by
  rw [sortDedup, sortDedup, List.map_map]
  refine List.map_congr_left fun group _ => ?_
  exact congrArg (Prod.mk group.1) (Sorting.sortDedup_sortDedup group.2)

private theorem settle_settle (plan : PrefetchPlan) : plan.settle.settle = plan.settle := by
  rw [settle, settle, sortDedup_sortDedup]

end PrefetchPlan

namespace StreamingPlanner

open PrefetchPlan

/-- Plan the rows of one token after another into one plan. -/
def advanceAll (L : Layout) (s : StreamingPlanner × PrefetchPlan) (calls : List (List ℕ)) :
    Outcome IoError (StreamingPlanner × PrefetchPlan) :=
  calls.foldlM (fun s rows => do
    let (p, plan, _) ← s.1.advance rows L s.2
    pure (p, plan)) s

/-- What leaves the window was in it. -/
private theorem inWindow_leave_subset (p : StreamingPlanner) : p.leave.inWindow ⊆ p.inWindow := by
  unfold leave
  split
  · exact Finset.Subset.refl _
  · exact Finset.erase_subset _ _

private theorem inWindow_evict_subset (fuel : ℕ) (p : StreamingPlanner) :
    (evict fuel p).inWindow ⊆ p.inWindow := by
  induction fuel generalizing p with
  | zero => exact Finset.Subset.refl _
  | succ fuel ih =>
    rw [evict]
    split_ifs with hlarge
    · exact (ih p.leave).trans (inWindow_leave_subset p)
    · exact Finset.Subset.refl _

/-- The plan has the badges of the map, and every badge in the window is one of them. -/
structure Tracks (p : StreamingPlanner) (plan : PrefetchPlan) (m : List (ℕ × List ℕ)) : Prop where
  /-- The shards are the same, and so are the badges of each, but for repeats. -/
  alike : Alike plan.shardBadges m
  /-- What is in the window has been planned. -/
  planned : ∀ b ∈ p.inWindow, b.2 ∈ (m.lookup b.1).getD []

variable {L : Layout} {p : StreamingPlanner} {plan : PrefetchPlan} {m : List (ℕ × List ℕ)}

private theorem tracks_new (windowBadges : ℕ) : Tracks (new windowBadges) .empty [] where
  alike := .nil
  planned := by
    intro b hb
    exact absurd hb (Finset.notMem_empty b)

/-- The badges of a map stay when one is pushed. -/
theorem mem_lookup_push {s k b v : ℕ} (h : b ∈ (m.lookup s).getD []) :
    b ∈ ((push m k v).lookup s).getD [] := by
  rw [lookup_push]
  split_ifs
  · exact List.mem_append_left _ h
  · exact h

/-- A row is planned: it is pushed into the map, and into the plan unless its badge is in the
window. -/
private theorem tracks_planRow (h : Tracks p plan m) (n r : ℕ) :
    Except.Both (fun s m => Tracks s.1 s.2.1 m) (planRow L (p, plan, n) r) (pushRow L m r) := by
  unfold planRow pushRow
  cases L.locate r with
  | error e => exact rfl
  | ok place =>
    obtain ⟨shard, badge, inBadge⟩ := place
    simp only [bind, Except.bind]
    by_cases hmem : (shard, badge) ∈ p.inWindow
    · rw [dif_pos hmem]
      exact ⟨h.alike.push_right (h.planned _ hmem), fun b hb => mem_lookup_push (h.planned b hb)⟩
    · rw [dif_neg hmem]
      refine ⟨h.alike.push shard badge, fun b hb => ?_⟩
      rcases Finset.mem_insert.mp hb with rfl | hb
      · rw [lookup_push, if_pos rfl]
        exact List.mem_append_right _ (List.mem_singleton.mpr rfl)
      · exact mem_lookup_push (h.planned b hb)

/-- A token is planned. The badges that leave the window stay in the plan. -/
private theorem tracks_advance (h : Tracks p plan m) (rows : List ℕ) :
    Except.Both (fun s m => Tracks s.1 s.2.1 m) (p.advance rows L plan)
      (rows.foldlM (pushRow L) m) := by
  have hrows : Except.Both (fun s m => Tracks s.1 s.2.1 m) (rows.foldlM (planRow L) (p, plan, 0))
      (rows.foldlM (pushRow L) m) :=
    .foldlM (fun s m r hs => tracks_planRow hs s.2.2 r) rows h
  rw [← bind_pure (rows.foldlM (pushRow L) m)]
  refine hrows.bind fun s m' hs => ?_
  exact ⟨hs.alike, fun b hb => hs.planned b (inWindow_evict_subset _ _ hb)⟩

/-- A stream is planned, and the rows of all of its tokens are pushed into the map. -/
private theorem tracks_advanceAll (h : Tracks p plan m) (calls : List (List ℕ)) :
    Except.Both (fun s m => Tracks s.1 s.2 m) (advanceAll L (p, plan) calls)
      (calls.flatten.foldlM (pushRow L) m) := by
  induction calls generalizing p plan m with
  | nil => exact h
  | cons rows calls ih =>
    rw [advanceAll, List.foldlM_cons, List.flatten_cons, List.foldlM_append, bind_assoc]
    refine (tracks_advance h rows).bind fun s m' hs => ?_
    exact ih hs

/-- However the rows of a stream are cut into tokens, and whatever the size of the window, the
settled plan is the plan of all the rows: the same shards, the same badges of each in the same
order, and as many. The badges of a shard strictly increase, and settling again changes nothing.
There is such a plan unless the layout has no rows in a shard or in a badge. -/
theorem settle_advanceAll (L : Layout) (windowBadges : ℕ) (calls : List (List ℕ)) :
    (advanceAll L (new windowBadges, .empty) calls).map (fun s => s.2.settle) =
        PrefetchPlan.build calls.flatten L ∧
      (∀ plan, PrefetchPlan.build calls.flatten L = .ok plan →
        (∀ shard, (plan.badges shard).Pairwise (· < ·)) ∧ plan.settle = plan) ∧
      (0 < L.rowsPerShard → 0 < L.badgeRows →
        ∃ plan, PrefetchPlan.build calls.flatten L = .ok plan) := by
  rw [PrefetchPlan.build_eq_map]
  -- the plan of the calls and the plan of the batch have the same badges, in another order
  refine ⟨(tracks_advanceAll (tracks_new windowBadges) calls).map_eq fun s m hs => ?_, ?_, ?_⟩
  · have hmap := sortDedup_eq_of_alike hs.alike
    rw [settle, ofMap, hmap]
  · intro plan hplan
    cases hm : calls.flatten.foldlM (pushRow L) [] with
    | error e =>
      rw [hm] at hplan
      cases hplan
    | ok m =>
      rw [hm] at hplan
      obtain rfl := Except.ok.inj hplan
      have hsettle : ofMap m = settle ⟨m, 0⟩ := rfl
      rw [hsettle, settle_settle]
      refine ⟨fun shard => ?_, rfl⟩
      rw [BadgeGather.badges_settle]
      exact Sorting.pairwise_sortDedup _
  · intro hrows hbadge
    obtain ⟨m, hm⟩ := exists_pushRows_eq_ok hrows hbadge calls.flatten []
    exact ⟨ofMap m, by rw [hm]; rfl⟩

end StreamingPlanner

end EngramDB
