import EngramDB.Cli.View.Published

/-!
# Verifying a view that is published

`view verify` reads the keys file of a view from its manifest for the index, but not for the view.
So a view that is published is verified exactly when it has a gram and its keys file is named on the
command line (`cmdViewVerify_ok_iff`).
-/

namespace EngramDB

open SlotBuffer

namespace Cli

open View

variable {env env' : ViewEnv} {disk : Disk} {g g' : BadgeGather} {rowsDir view keysOut : String}
  {backend backend' : Option String} {keys : List UInt64} {m : Json.Value}

/-- Two openings of one table directory that succeed (`h`, `h'`) give the same layout and files,
whatever the backend. -/
private theorem eq_of_openTable (h : openTable env disk rowsDir backend = .ok g)
    (h' : openTable env' disk rowsDir backend' = .ok g') :
    g'.layout = g.layout ∧ g'.files = g.files := by
  obtain ⟨layout, hlayout, h⟩ := Except.bind_eq_ok_iff.mp h
  obtain ⟨name, -, h⟩ := Except.bind_eq_ok_iff.mp h
  obtain ⟨layout', hlayout', h'⟩ := Except.bind_eq_ok_iff.mp h'
  obtain ⟨name', -, h'⟩ := Except.bind_eq_ok_iff.mp h'
  obtain rfl := Except.ok.inj (hlayout.symm.trans hlayout')
  rw [BadgeGather.openWithBackend] at h h'
  split_ifs at h h'
  · obtain rfl := Except.ok.inj h
    obtain rfl := Except.ok.inj h'
    exact ⟨rfl, rfl⟩
  · cases h

/-- The rows of a gram are those of the files. -/
theorem gramRows_congr (hlayout : g'.layout = g.layout) (hfiles : g'.files = g.files)
    (gram : List ℕ) : gramRows g' gram = gramRows g gram := by
  have hrow (k : ℕ) : g'.storedRow k = g.storedRow k := by
    simp only [BadgeGather.storedRow, BadgeGather.fileRow, hlayout, hfiles]
  exact congrArg List.flatten (List.map_congr_left fun k _ => hrow k)

/-- The records of a view that is published start with the rows of their grams. -/
private theorem Published.startsWithRows (h : Published disk rowsDir view keysOut keys m)
    (hopen : openTable env disk rowsDir backend = .ok g) :
    ∃ r, ViewReader.openFiles (disk.viewFiles view) = .ok r ∧ r.count = keys.length / HEAD_W ∧
      ∀ i < r.count, StartsWithRows g (r.record i) (slot HEAD_W (keys.map UInt64.toNat) i) := by
  obtain ⟨env', backend', g', slotBytes, r, hopen', -, hserves, -, hreader, hshows⟩ := h.shows
  obtain ⟨hlayout, hfiles⟩ := eq_of_openTable hopen' hopen
  have hcount : r.count = keys.length / HEAD_W := by
    rw [hshows.count_eq, List.length_map]
  refine ⟨r, hreader, hcount, fun i hi => ?_⟩
  have hslot : (slots HEAD_W (keys.map UInt64.toNat))[i]? =
      some (slot HEAD_W (keys.map UInt64.toNat) i) :=
    getElem?_slots (by rwa [List.length_map, ← hcount])
  constructor
  · intro k hk
    rw [hlayout]
    exact hserves.inRange k (List.mem_of_mem_drop (List.mem_of_mem_take hk))
  · rw [hshows.record_eq i _ hslot, gramRows_congr hlayout hfiles]
    exact List.prefix_append _ _

/-- A view that is published is verified, with the index that its manifest names or without, exactly
when it has a gram and its keys file is named on the command line. -/
theorem cmdViewVerify_ok_iff {argv : List String} {args : ViewVerifyArgs}
    (hargs : ViewVerifyArgs.parse argv = .ok args)
    (h : Published disk args.rowsDir args.viewFile keysOut keys m)
    (hkeys : args.keys = none ∨ args.keys = some keysOut)
    (hindex : ∀ dir, args.slotIndex = some dir → m.get "slot_index" = some (.string dir))
    (hopen : openTable env disk args.rowsDir args.backend = .ok g) (hg : Intact g)
    (hos : env.verify.os.Delivers) (hseen : ∀ i, (env.verify.sched i).panicSeen = true) :
    cmdViewVerify env disk argv = .ok () ↔ args.keys = some keysOut ∧ keys ≠ [] := by
  obtain ⟨r, hreader, hcount, hstarts⟩ := h.startsWithRows hopen
  have hread := readKeys_keysText keys
  -- the verification of the view itself
  have hview (named : Option (List ℕ)) :
      (View.verifyView env.verify g (disk.viewFiles args.viewFile) named
        args.subGrams.toNat).mapErr env.describe = .ok () ↔
      0 < r.count ∧ r.count ≤ (named.getD []).length / HEAD_W ∧
        ∀ i < checkCount args.subGrams.toNat r.count,
          StartsWithRows g (r.record i) (slot HEAD_W (named.getD []) i) := by
    rw [Outcome.mapErr_eq_ok_iff, verifyView_ok_iff hg hos hseen, hreader]
    constructor
    · rintro ⟨r', hr', hrest⟩
      obtain rfl := Except.ok.inj hr'
      exact hrest
    · exact fun hrest => ⟨r, rfl, hrest⟩
  rw [cmdViewVerify, hargs]
  simp only [Outcome.ofExcept_ok, Except.ok_bind, hopen]
  rcases hkeys with hnone | hsome
  · -- no keys are handed on to the verification of the view
    refine iff_of_false (fun hok => ?_) (fun hsome => ?_)
    · obtain ⟨_, -, hok⟩ := Except.bind_eq_ok_iff.mp hok
      rw [hnone] at hok
      obtain ⟨hpos, hle, -⟩ := (hview none).mp hok
      rw [Option.getD_none, List.length_nil, Nat.zero_div] at hle
      omega
    · rw [hnone] at hsome
      cases hsome.1
  · have hpass : verifyIndex env disk args = .ok () := by
      rw [verifyIndex]
      cases hdir : args.slotIndex with
      | none => rfl
      | some dir =>
        obtain ⟨dir', hdir', hanswers⟩ := h.index _ (hindex dir hdir)
        obtain rfl := Json.Value.string.inj hdir'
        simp only [hsome, Option.elim_some, Outcome.ofExcept_ok, Except.ok_bind, h.keys_eq,
          indexKeys_ofText, (hanswers _).2]
        rfl
    have hlen : (keys.map UInt64.toNat).length / HEAD_W = r.count := by
      rw [List.length_map, hcount]
    have hpos : 0 < r.count ↔ keys ≠ [] := by
      rw [hcount, ← List.length_pos_iff]
      have hdvd := Nat.div_mul_cancel h.dvd
      constructor
      · intro hc
        exact Nat.lt_of_lt_of_le (Nat.mul_pos hc (by decide)) (Nat.le_of_eq hdvd)
      · intro hc
        refine Nat.pos_of_ne_zero fun hzero => ?_
        rw [hzero, Nat.zero_mul] at hdvd
        omega
    have hcheck : checkCount args.subGrams.toNat r.count ≤ r.count := by
      rw [checkCount]
      split_ifs
      · exact Nat.min_le_right _ _
      · exact Nat.min_le_left _ _
    simp only [hpass, hsome, Option.elim_some, h.keys_eq, hread, Except.mapError, Except.map,
      Outcome.ofExcept_ok, Except.ok_bind, hview, Option.getD_some, hlen, hpos, true_and, le_refl]
    exact and_iff_left fun i hi => hstarts i (Nat.lt_of_lt_of_le hi hcheck)

/-- The manifest of a view of one gram. -/
def oneGramManifest : Json.Value := keysManifest 2564 "" (some "keys.txt") 16

/-- A disk with a view of one gram, in a slot with room for four more bytes. -/
def oneGramDisk : Disk :=
  { sevensDisk with
    view := fun _ => some (viewRecords sevensTable 2564 (List.replicate 16 0)).flatten
    manifestFile := fun _ => some oneGramManifest
    keysFile := fun _ => .ofText (keysText (List.replicate 16 0)) }

theorem published_oneGramDisk :
    Published oneGramDisk "rows" "v.bin" "keys.txt" (List.replicate 16 0) oneGramManifest := by
  have hserves : View.Serves sevensTable ((List.replicate 16 (0 : UInt64)).map UInt64.toNat) :=
    intact_sevensTable.serves fun k hk => by
      obtain ⟨v, hv, rfl⟩ := List.mem_map.mp hk
      rw [List.eq_of_mem_replicate hv]
      decide
  have hwidth : View.RECORD_BYTES ≤ (2564 : UInt64).toNat := by decide
  have hbuild := buildViewFromKeys_eq_ok faultless_faultlessEnv hwidth hserves.toFits (by decide)
    (some "keys.txt") noFiles
  obtain ⟨r, hopen, hshows⟩ := shows_of_build hserves hwidth (by decide) hbuild
  refine ⟨by decide, ⟨calmViewEnv, none, sevensTable, 2564, r, openTable_sevens rfl,
    intact_sevensTable, hserves, hwidth, ?_, hshows⟩, rfl, rfl, fun v hv => by cases hv⟩
  rw [← hopen]
  rfl

theorem cmdViewVerify_ok_iff_oneGramDisk :
    cmdViewVerify calmViewEnv oneGramDisk ["rows", "v.bin", "--keys", "keys.txt"] = .ok () ↔
      some "keys.txt" = some "keys.txt" ∧ List.replicate 16 (0 : UInt64) ≠ [] := by
  have hargs : ViewVerifyArgs.parse ["rows", "v.bin", "--keys", "keys.txt"] =
      .ok ⟨"rows", "v.bin", some "keys.txt", none, 0, none⟩ := rfl
  exact cmdViewVerify_ok_iff hargs published_oneGramDisk (.inr rfl) (fun _ h => by cases h)
    (openTable_sevens rfl) intact_sevensTable fullPread_full.delivers fun _ => rfl

end Cli

end EngramDB
