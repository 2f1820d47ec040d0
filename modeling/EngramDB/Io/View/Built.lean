import EngramDB.Io.View.Grams
import EngramDB.Io.View.Reads

/-!
# Opening a view that was built

* `eq_of_buildViewFromKeys_ok`: the files that a build leaves when it returns;
* `shows_of_build`: a view that is opened from these files has the rows of the grams in its records.
-/

namespace EngramDB

open SlotBuffer

namespace View

variable {env : BuildEnv} {g : BadgeGather} {slotBytes : UInt64} {keys : List ℕ}
  {keysOut : Option String} {before after : ViewFiles}

/-- What is in the files when a build returns (`h`): the records of its body, the manifest of their
total and the keys that were kept. -/
theorem eq_of_writeFiles_ok {start : Writer} {body : Write ℕ} {manifest : ℕ → Json.Value}
    (h : writeFiles env before start body manifest = (.ok (), after)) :
    ∃ total w, body start = (.ok total, w) ∧
      after = ⟨some w.records.flatten, some (manifest total), keysAfter env w before.keys⟩ := by
  obtain ⟨total, w, hbody⟩ := writeFiles_ok (congrArg Prod.fst h)
  refine ⟨total, w, hbody, ?_⟩
  rw [writeFiles] at h
  cases hopen : env.fails .openView with
  | some e =>
    rw [hopen] at h
    cases h
  | none =>
    simp only [hopen, hbody] at h
    -- the manifest was opened and written
    cases hopenM : env.fails .openManifest with
    | some e =>
      rw [hopenM] at h
      cases h
    | none =>
      cases hwriteM : env.fails .writeManifest with
      | some e =>
        rw [hopenM, hwriteM] at h
        cases h
      | none =>
        rw [hopenM, hwriteM] at h
        exact (Prod.mk.inj h).2.symm

/-- A build that returns was given whole grams, and its files hold all their slots. -/
theorem eq_of_buildViewFromKeys_ok (hslot : RECORD_BYTES ≤ slotBytes.toNat) (hfits : Fits g keys)
    (h : buildViewFromKeys env g keys slotBytes keysOut before = (.ok (), after)) :
    HEAD_W ∣ keys.length ∧ after = ⟨some (viewRecords g slotBytes keys).flatten,
      some (keysManifest slotBytes s!"provided-keys:{keys.length} shards={g.layout.shards}" keysOut
        keys.length),
      keysAfter env ⟨viewRecords g slotBytes keys, keysOut.map fun _ => keys⟩ before.keys⟩ := by
  rw [buildViewFromKeys] at h
  by_cases hdvd : HEAD_W ∣ keys.length
  · rw [if_neg (not_not_intro hdvd)] at h
    obtain ⟨total, w, hbody, rfl⟩ := eq_of_writeFiles_ok h
    have hmakes := makes_writeKeysView env hslot hfits keysOut
    -- a body that returns made all its calls, so it left what they leave
    have heq := hbody.symm.trans (hmakes.returns (hmakes.works_of_ok hbody))
    cases heq
    exact ⟨hdvd, rfl⟩
  · rw [if_pos hdvd] at h
    cases h

/-- An open view whose records are the slots of grams. -/
structure Shows (g : BadgeGather) (slotBytes : UInt64) (keys : List ℕ) (r : ViewReader) : Prop where
  /-- The slots are as wide as they were made. -/
  slotBytes_eq : r.slotBytes = slotBytes
  /-- There is a record for every gram. -/
  count_eq : r.count = keys.length / HEAD_W
  /-- A record has the rows of its gram, and zeros after them. -/
  record_eq : ∀ i gram, (slots HEAD_W keys)[i]? = some gram →
    r.record i = padded slotBytes (gramRows g gram)

/-- A view that is opened from the files of a build shows the grams. -/
theorem shows_of_build (hserves : Serves g keys) (hslot : RECORD_BYTES ≤ slotBytes.toNat)
    (hlt : keys.length / HEAD_W < 2 ^ 64)
    (h : buildViewFromKeys env g keys slotBytes keysOut before = (.ok (), after)) :
    ∃ r, ViewReader.openFiles after = .ok r ∧ Shows g slotBytes keys r := by
  obtain ⟨-, rfl⟩ := eq_of_buildViewFromKeys_ok hslot hserves.toFits h
  have hpos : 0 < slotBytes.toNat := Nat.lt_of_lt_of_le (by decide) hslot
  have hwide : ∀ rec ∈ viewRecords g slotBytes keys, rec.length = slotBytes.toNat := fun _ =>
    hserves.length_of_mem_viewRecords hslot
  refine ⟨_, ViewReader.openFiles_eq_ok rfl, rfl, ?_, fun i gram hi => ?_⟩
  -- the file has as many records as the manifest says
  · show ViewReader.countOf _ slotBytes (.ofNat (keys.length / HEAD_W)) = _
    have hgrans : (UInt64.ofNat (keys.length / HEAD_W)).toNat = keys.length / HEAD_W := by
      rw [UInt64.toNat_ofNat', Nat.mod_eq_of_lt hlt]
    rw [ViewReader.countOf, length_flatten hwide, length_viewRecords, Nat.mul_div_cancel _ hpos]
    simp only [hgrans, Nat.min_self, ite_self]
  · show slot slotBytes.toNat (viewRecords g slotBytes keys).flatten i = _
    refine slot_flatten hwide ?_
    rw [viewRecords_eq hserves, List.getElem?_map, hi]
    rfl

/-- In slots of the width of a record there is nothing but the rows. -/
theorem Shows.record_eq_gramRows {r : ViewReader} (h : Shows g slotBytes keys r)
    (hserves : Serves g keys) (hslot : slotBytes.toNat = RECORD_BYTES) {i : ℕ} {gram : List ℕ}
    (hi : (slots HEAD_W keys)[i]? = some gram) : r.record i = gramRows g gram := by
  rw [h.record_eq i gram hi, padded, hslot, hserves.length_gramRows (List.mem_of_getElem? hi),
    Nat.sub_self]
  exact List.append_nil _

end View

end EngramDB
