import EngramDB.Python.Streaming

/-!
# The bytes of a stream

A sequence that is fed chunk by chunk computes the row ids of the whole list (`Streaming`). Here are
the bytes that it fetches for them.

* `fetchRaw_bytes`: a fetch returns the bytes of its row tuples one after another, or as many
  records from the first slot on when the view is read in sequence;
* `feedAll_raw`: so does every feed of a run;
* `sameBytes_iff`: the bytes of a run do not depend on how the tokens are cut, unless the view is
  read in sequence: every feed starts over at the first slot.
-/

namespace EngramDB

open Ngram

/-- What a store, a view and a slot index return, when they return. -/
structure PleContents where
  /-- The bytes of a row of the store. -/
  row : ℤ → Bytes
  /-- The record in a slot of the view. -/
  record : ℤ → Bytes
  /-- The slot that the index finds for a row tuple. -/
  slotOf : List ℤ → ℤ
  /-- Bytes of a record. -/
  slotBytes : ℕ
  /-- All records are as wide as a slot. -/
  length_record : ∀ slot, (record slot).length = slotBytes

namespace PleContents

variable {σ : Type}

/-- The objects return these contents, whatever happened before. -/
def Describes (c : PleContents) : PleSource σ → Prop
  | .store store => ∀ ids s raw s', store.fetch ids s = (.ok raw, s') → raw = ids.flatMap c.row
  | .view view slotIndex =>
    (∀ slots s raw s', view.readRecords slots s = (.ok raw, s') → raw = slots.flatMap c.record) ∧
      ∀ lookup, slotIndex = some lookup → ∀ row s slot s', lookup row s = (.ok slot, s') →
        slot = c.slotOf row

end PleContents

namespace PleMemory

variable {σ : Type} (mem : PleMemory σ) (c : PleContents)

/-- The view is read in sequence: there is no index. -/
def Sequential : Prop := ∃ view, mem.source = .view view none

/-- The bytes of a fetch. In a view that is read in sequence, the records from the first slot on. -/
def bytesOf (rows : List (List ℤ)) : Bytes :=
  match mem.source with
  | .store _ => rows.flatMap fun row => row.flatMap c.row
  | .view _ (some _) => rows.flatMap fun row => c.record (c.slotOf row)
  | .view _ none => (List.range rows.length).flatMap fun i : ℕ => c.record (mem.startSlot + i)

variable {mem c} {rows : List (List ℤ)} {raw : Bytes} {s s' : σ}

/-- Lookups that return (`h`) find the slots of their rows, when each of them does (`hlookup`). -/
private theorem mapM_lookup_eq {lookup : PyLookup σ} {slotOf : List ℤ → ℤ}
    (hlookup : ∀ row s slot s', lookup row s = (.ok slot, s') → slot = slotOf row) {slots : List ℤ}
    (h : rows.mapM lookup s = (.ok slots, s')) : slots = rows.map slotOf := by
  induction rows generalizing s slots with
  | nil =>
    cases h
    rfl
  | cons row rows ih =>
    rw [List.mapM_cons] at h
    obtain ⟨slot, t, hslot, h⟩ := PyM.bind_eq_ok_iff.mp h
    obtain ⟨rest, t', hrest, h⟩ := PyM.bind_eq_ok_iff.mp h
    cases h
    rw [hlookup row s slot t hslot, ih hrest, List.map_cons]

/-- A fetch that returns gives the bytes of its row tuples one after another. -/
theorem fetchRaw_bytes (hc : c.Describes mem.source) (h : mem.fetchRaw rows s = (.ok raw, s')) :
    raw = mem.bytesOf c rows := by
  obtain ⟨rows', t, hrows, hrest⟩ := PyM.bind_eq_ok_iff.mp h
  obtain ⟨rfl, -⟩ := eq_of_coerceRows_ok (congrArg Prod.fst hrows)
  by_cases hnil : rows' = []
  · rw [if_pos hnil] at hrest
    cases hrest
    rw [hnil, bytesOf]
    split <;> rfl
  rw [if_neg hnil] at hrest
  -- the check of the length lets the bytes through as they are
  have hchecked : ∀ {raw' : Bytes} {e : PyError} {t : σ},
      (do if raw'.length ≠ rows'.length * mem.recordBytes then throw e
          pure raw' : PyM σ Bytes) t = (.ok raw, s') → raw = raw' := by
    intro raw' e t hcheck
    by_cases hlen : raw'.length = rows'.length * mem.recordBytes
    · rw [if_neg (not_not.mpr hlen)] at hcheck
      cases hcheck
      rfl
    · rw [if_pos hlen] at hcheck
      cases hcheck
  cases hsource : mem.source with
  | store store =>
    rw [hsource] at hrest hc
    obtain ⟨raw', t', hfetch, hcheck⟩ := PyM.bind_eq_ok_iff.mp hrest
    rw [hchecked hcheck, hc _ _ _ _ hfetch, bytesOf, hsource, List.flatten_eq_flatMap,
      List.flatMap_assoc]
    rfl
  | view view slotIndex =>
    rw [hsource] at hrest hc
    cases slotIndex with
    | some lookup =>
      obtain ⟨slots, t', hslots, hread⟩ := PyM.bind_eq_ok_iff.mp hrest
      obtain ⟨raw', t'', hread, hcheck⟩ := PyM.bind_eq_ok_iff.mp hread
      rw [hchecked hcheck, hc.1 _ _ _ _ hread, mapM_lookup_eq (hc.2 lookup rfl) hslots, bytesOf,
        hsource, List.flatMap_map]
    | none =>
      obtain ⟨slots, t', hslots, hread⟩ := PyM.bind_eq_ok_iff.mp hrest
      obtain ⟨raw', t'', hread, hcheck⟩ := PyM.bind_eq_ok_iff.mp hread
      cases hslots
      simp only [hchecked hcheck, hc.1 _ _ _ _ hread, bytesOf, hsource, List.flatMap_map,
        List.bind_eq_flatMap, List.pure_def, List.flatMap_assoc, List.flatMap_singleton]

/-- Separators in front of a history that is not empty (`hne`) change no row, for a look back stops
at the first of them anyway. -/
private theorem rowsFrom_replicate_append (mem : PleMemory σ) (k : ℕ) {history : List ℤ}
    (hne : history ≠ []) (tokens : List ℤ) :
    rowsFrom mem.eos mem.ngramSize mem.rowOf (List.replicate k mem.eos ++ history) tokens =
      rowsFrom mem.eos mem.ngramSize mem.rowOf history tokens := by
  rcases rowFunction_total_or_error mem.sameFault_rowOf with ⟨f, hf⟩ | ⟨e, he⟩
  · rw [rowsFrom_eq_of_ok hf, rowsFrom_eq_of_ok hf, rowsOf_replicate_history]
  · rw [rowsFrom_eq_of_error he (by simp [hne]), rowsFrom_eq_of_error he (by simp [hne])]

/-- An empty history counts as absent, also when it is the history of the first chunk. -/
private theorem feedChunks_nil (mem : PleMemory σ) (toks : List (List ℤ)) :
    mem.feedChunks [] toks = mem.feedRowids [] toks.flatten := by
  have hkeep : max 1 (mem.ngramSize - 1) ≠ 0 := by omega
  have habsent : ∀ tokens, mem.rowidsForTokens tokens (some []) =
      rowsFrom mem.eos mem.ngramSize mem.rowOf (List.replicate 2 mem.eos) tokens :=
    fun tokens => mem.rowidsForTokens_none tokens
  induction toks with
  | nil => rfl
  | cons tok toks ih =>
    rw [feedChunks, List.flatten_cons]
    split_ifs with htok
    · rw [ih, htok, List.nil_append]
    · have hlast : Py.lastItems ([] ++ tok) (max 1 (mem.ngramSize - 1)) ≠ [] :=
        lastItems_ne_nil (by simp [htok]) hkeep
      have hwhole : tok ++ toks.flatten ≠ [] := List.append_ne_nil_of_left_ne_nil htok _
      rw [mem.feedChunks_eq hlast, feedRowids, feedRowids, if_neg hwhole, habsent, habsent,
        rowidsForTokens_some _ hlast]
      split_ifs with hrest
      · rw [hrest, List.append_nil]
        cases rowsFrom mem.eos mem.ngramSize mem.rowOf (List.replicate 2 mem.eos) tok <;>
          simp [bind, Except.bind, pure, Except.pure]
      · rw [Py.lastItems, if_neg hkeep, rowsFrom_drop_history mem.sameFault_rowOf (by omega) hkeep,
          List.nil_append, rowsFrom_append mem.sameFault_rowOf (by simp),
            rowsFrom_replicate_append mem 2 htok]

/-- Chunk by chunk, the row ids are those of the whole list, whatever the history. -/
private theorem feedChunks_eq_feedRowids (mem : PleMemory σ) (history : List ℤ)
    (toks : List (List ℤ)) :
    mem.feedChunks history toks = mem.feedRowids history toks.flatten := by
  rcases eq_or_ne history [] with rfl | hne
  · exact mem.feedChunks_nil toks
  · exact mem.feedChunks_eq hne toks

end PleMemory

namespace PleSequence

variable {σ : Type} {mem : PleMemory σ} {c : PleContents} {seq seq' : PleSequence} {s s' : σ}

/-- What a feed that returns (`h`) has fetched, from a source that `c` describes (`hc`): the bytes
of the row ids, one tuple of these for each token. -/
theorem feed_raw (hc : c.Describes mem.source) {tok : List ℤ} {step : PleStep}
    (h : seq.feed mem tok s = (.ok (step, seq'), s')) :
    step.raw = mem.bytesOf c step.rowids ∧ step.rowids.length = tok.length := by
  unfold feed at h
  split_ifs at h with htok
  · cases h
    rw [htok, PleMemory.bytesOf]
    split <;> exact ⟨rfl, rfl⟩
  · obtain ⟨rows, t, hrows, h⟩ := PyM.bind_eq_ok_iff.mp h
    obtain ⟨raw, t', hraw, h⟩ := PyM.bind_eq_ok_iff.mp h
    rw [PyM.lift_apply, Prod.mk.injEq] at hrows
    cases h
    exact ⟨PleMemory.fetchRaw_bytes hc hraw, mem.length_rowidsForTokens hrows.1⟩

/-- What the feeds of a run that returns have fetched. -/
theorem feedAll_raw (hc : c.Describes mem.source) {toks : List (List ℤ)} {steps : List PleStep}
    (h : feedAll mem seq toks s = (.ok (steps, seq'), s')) :
    steps.map PleStep.raw = steps.map (fun step => mem.bytesOf c step.rowids) ∧
      steps.map (fun step => step.rowids.length) = toks.map List.length := by
  induction toks generalizing seq s steps with
  | nil =>
    cases h
    exact ⟨rfl, rfl⟩
  | cons tok toks ih =>
    obtain ⟨⟨step, seq₁⟩, t, hfeed, h⟩ := PyM.bind_eq_ok_iff.mp h
    obtain ⟨⟨rest, seq₂⟩, t', hall, h⟩ := PyM.bind_eq_ok_iff.mp h
    cases h
    obtain ⟨hraw, hlen⟩ := feed_raw hc hfeed
    obtain ⟨hraws, hlens⟩ := ih hall
    rw [List.map_cons, List.map_cons, List.map_cons, List.map_cons, hraw, hlen, hraws, hlens]
    exact ⟨rfl, rfl⟩

/-- The records of each chunk, counted from the first slot on, are those of its place in the
stream. -/
def RestartsAlike (g : ℕ → Bytes) : ℕ → List (List ℤ) → Prop
  | _, [] => True
  | off, tok :: toks => (∀ i < tok.length, g i = g (off + i)) ∧
    RestartsAlike g (off + tok.length) toks

/-- Two rows of records of one width are equal iff their records are. -/
private theorem flatMap_range_eq_iff {g g' : ℕ → Bytes} {w : ℕ} (hg : ∀ i, (g i).length = w)
    (hg' : ∀ i, (g' i).length = w) (n : ℕ) :
    (List.range n).flatMap g = (List.range n).flatMap g' ↔ ∀ i < n, g i = g' i := by
  induction n with
  | zero => simp
  | succ n ih =>
    have hlen : ((List.range n).flatMap g).length = ((List.range n).flatMap g').length := by
      simp only [List.length_flatMap, hg, hg']
    rw [List.range_succ, List.flatMap_append, List.flatMap_append, List.flatMap_singleton,
      List.flatMap_singleton, List.append_eq_append_iff_of_size_eq_left hlen, ih,
        Nat.forall_lt_succ_right]

/-- Starting over with every chunk gives the records of the stream iff they are alike. -/
private theorem restart_eq_iff {g : ℕ → Bytes} {w : ℕ} (hg : ∀ i, (g i).length = w)
    (toks : List (List ℤ)) (off : ℕ) :
    (toks.flatMap fun tok => (List.range tok.length).flatMap g) =
        (List.range toks.flatten.length).flatMap (fun i => g (off + i)) ↔
      RestartsAlike g off toks := by
  induction toks generalizing off with
  | nil => exact iff_of_true rfl trivial
  | cons tok toks ih =>
    have hlen : ((List.range tok.length).flatMap g).length =
        ((List.range tok.length).flatMap fun i => g (off + i)).length := by
      simp only [List.length_flatMap, hg]
    have hrest :
        ((List.range toks.flatten.length).map (tok.length + ·)).flatMap (fun i => g (off + i)) =
          (List.range toks.flatten.length).flatMap fun i => g (off + tok.length + i) := by
      rw [List.flatMap_map]
      simp only [Nat.add_assoc]
    rw [List.flatMap_cons, List.flatten_cons, List.length_append, List.range_add,
      List.flatMap_append, hrest,
      List.append_eq_append_iff_of_size_eq_left hlen, ih, flatMap_range_eq_iff hg fun i => hg _]
    rfl

/-- The bytes of a run that is fed chunk by chunk are those of the whole list fed at once, unless
the view is read in sequence: then iff the records that every chunk starts over with are those of
its place. -/
theorem sameBytes_iff (hc : c.Describes mem.source) {history : Option (List ℤ)} {keepSteps : ℤ}
    {toks : List (List ℤ)} {steps : List PleStep}
    (hrun : feedAll mem (new mem history keepSteps) toks s = (.ok (steps, seq), s'))
    {step : PleStep} {t t' : σ}
    (hwhole : (new mem history keepSteps).feed mem toks.flatten t = (.ok (step, seq'), t')) :
    steps.flatMap PleStep.raw = step.raw ↔
      (mem.Sequential → RestartsAlike (fun i : ℕ => c.record (mem.startSlot + i)) 0 toks) := by
  -- both compute the row ids of the whole list
  have hrows : step.rowids = steps.flatMap PleStep.rowids := by
    have hchunks := feedAll_eq_ok hrun
    rw [PleMemory.feedChunks_eq_feedRowids, PleMemory.feedRowids] at hchunks
    rcases feed_eq_ok hwhole with ⟨hnil, hstep, -⟩ | ⟨hne, hstep, -⟩
    · rw [if_pos hnil] at hchunks
      rw [hstep]
      exact Except.ok.inj hchunks
    · rw [if_neg hne, hstep] at hchunks
      exact Except.ok.inj hchunks
  obtain ⟨hraws, hlens⟩ := feedAll_raw hc hrun
  obtain ⟨hraw, hlen⟩ := feed_raw hc hwhole
  have hbytes :
      steps.flatMap PleStep.raw = steps.flatMap fun step => mem.bytesOf c step.rowids := by
    rw [List.flatMap_def, List.flatMap_def, hraws]
  rw [hbytes, hraw]
  cases hsource : mem.source with
  | store store =>
    have hseq : ¬ mem.Sequential := by
      rintro ⟨_, h⟩
      rw [hsource] at h
      cases h
    simp only [PleMemory.bytesOf, hsource, hrows]
    exact iff_of_true List.flatMap_assoc.symm fun h => absurd h hseq
  | view view slotIndex =>
    cases slotIndex with
    | some lookup =>
      have hseq : ¬ mem.Sequential := by
        rintro ⟨_, h⟩
        rw [hsource] at h
        cases h
      simp only [PleMemory.bytesOf, hsource, hrows]
      exact iff_of_true List.flatMap_assoc.symm fun h => absurd h hseq
    | none =>
      have hseq : mem.Sequential := ⟨view, hsource⟩
      simp only [PleMemory.bytesOf, hsource, hlen]
      have hfeeds : (steps.flatMap fun step => (List.range step.rowids.length).flatMap fun i : ℕ =>
            c.record (mem.startSlot + i)) =
          toks.flatMap fun tok =>
            (List.range tok.length).flatMap fun i : ℕ => c.record (mem.startSlot + i) := by
        have hmap := congrArg (List.flatMap fun n => (List.range n).flatMap fun i : ℕ =>
          c.record (mem.startSlot + i)) hlens
        rwa [List.flatMap_map, List.flatMap_map] at hmap
      have hiff := restart_eq_iff (g := fun i : ℕ => c.record (mem.startSlot + i))
        (fun i => c.length_record _) toks 0
      simp only [Nat.zero_add] at hiff
      rw [hfeeds, hiff]
      exact ⟨fun h _ => h, fun h => h hseq⟩

/-- The records of a view: eight zeros in the first slot, and eight ones in all others. -/
def zerosThenOnes : PleContents where
  row _ := []
  record slot := List.replicate 8 (if slot = 0 then 0 else 1)
  slotOf _ := 0
  slotBytes := 8
  length_record _ := List.length_replicate ..

/-- A memory of two heads over a view with these records, which is read in sequence. -/
def sequentialMemory : PleMemory Unit :=
  { smokeMemory with
    source := .view ⟨.int 8, fun slots => pure (slots.flatMap zerosThenOnes.record)⟩ none }

private theorem describes_sequentialMemory : zerosThenOnes.Describes sequentialMemory.source := by
  refine ⟨fun slots s raw s' h => ?_, by rintro _ ⟨⟩⟩
  cases h
  rfl

/-- Two tokens, fed one by one and at once. -/
theorem feedAll_sequentialMemory : ∃ steps seq step seq',
    feedAll sequentialMemory (new sequentialMemory none 32) [[1], [2]] () = (.ok (steps, seq), ()) ∧
      (new sequentialMemory none 32).feed sequentialMemory [1, 2] () = (.ok (step, seq'), ()) ∧
      steps.flatMap PleStep.raw = List.replicate 16 0 ∧
      step.raw = List.replicate 8 0 ++ List.replicate 8 1 :=
  ⟨_, _, _, _, rfl, rfl, rfl, rfl⟩

theorem sameBytes_iff_sequentialMemory : ∃ (steps : List PleStep) (step : PleStep),
    (∃ seq s', feedAll sequentialMemory (new sequentialMemory none 32) [[1], [2]] () =
      (.ok (steps, seq), s')) ∧
      (steps.flatMap PleStep.raw = step.raw ↔ (sequentialMemory.Sequential →
        RestartsAlike (fun i : ℕ => zerosThenOnes.record (0 + i)) 0 [[1], [2]])) := by
  obtain ⟨steps, seq, step, seq', hrun, hwhole, -, -⟩ := feedAll_sequentialMemory
  exact ⟨steps, step, ⟨seq, (), hrun⟩, sameBytes_iff describes_sequentialMemory hrun hwhole⟩

/-- Fed one by one, both tokens get the record of the first slot. -/
theorem not_sameBytes_sequentialMemory : ∃ steps seq step seq',
    feedAll sequentialMemory (new sequentialMemory none 32) [[1], [2]] () = (.ok (steps, seq), ()) ∧
      (new sequentialMemory none 32).feed sequentialMemory [1, 2] () = (.ok (step, seq'), ()) ∧
      steps.flatMap PleStep.raw ≠ step.raw := by
  obtain ⟨steps, seq, step, seq', hrun, hwhole, hchunks, hraw⟩ := feedAll_sequentialMemory
  refine ⟨steps, seq, step, seq', hrun, hwhole, ?_⟩
  rw [hchunks, hraw]
  decide

end PleSequence

end EngramDB
