import EngramDB.Io.View.Written

/-!
# Building a view from a keys file

`buildViewFromKeysFile` reads its row ids line by line and writes a chunk whenever it is complete.

* `readLines_eq`: if all lines can be read and have whole grams together, the loop over the lines
  and the rest after it write the chunks of all row ids, one after another;
* `readLines_ok`: the loop and the rest return only then;
* `streaming_eq`: so the build succeeds iff the number of row ids is a positive multiple of sixteen,
  and leaves what `buildViewFromKeys` leaves for these row ids.
-/

namespace EngramDB

open SlotBuffer Chunking

namespace View

/-- The row ids of the lines of a keys file, up to the first that cannot be read. -/
def linesKeys : List (Except IoError (List Char)) → List ℕ
  | [] => []
  | .error _ :: _ => []
  | .ok line :: lines =>
    if Text.trim line = [] then linesKeys lines
    else
      match Text.parseU64 (Text.trim line) with
      | .error _ => []
      | .ok v => v.toNat :: linesKeys lines

/-- A line is blank or a row id. -/
def IsRowidLine (line : Except IoError (List Char)) : Prop :=
  ∃ cs, line = .ok cs ∧ (Text.trim cs = [] ∨ ∃ v, Text.parseU64 (Text.trim cs) = .ok v)

variable {env : BuildEnv} {g : BadgeGather} {slotBytes : UInt64} {chunk keys : List ℕ} {total : ℕ}
  {lines : List (Except IoError (List Char))} {cs : List Char} {w w' : Writer}

/-- What `readKeys` returns for a text are the row ids of its lines, and every line is blank or a
row id. -/
private theorem linesKeys_of_readKeys {ls : List (List Char)}
    (h : readKeys (.ok (ls.map .ok)) = .ok keys) :
    linesKeys (ls.map .ok) = keys ∧
      ∀ line ∈ ls.map (Except.ok (ε := IoError)), IsRowidLine line := by
  -- every line of a text can be read, so none is cut off
  have hread : ∀ ls : List (List Char),
      ((ls.map (Except.ok (ε := IoError))).takeWhile fun line => line.isOk).filterMap
        Except.toOption =
        ls := by
    intro ls
    induction ls with
    | nil => rfl
    | cons cs ls ih => exact congrArg (cs :: ·) ih
  simp only [readKeys, hread] at h
  obtain ⟨numbers, hnumbers, hkeys⟩ := Except.bind_eq_ok_iff.mp h
  cases hkeys
  clear h
  induction ls generalizing numbers with
  | nil =>
    cases hnumbers
    exact ⟨rfl, by simp⟩
  | cons cs ls ih =>
    by_cases hblank : Text.trim cs = []
    -- a blank line has no number
    · rw [List.map_cons, List.filter_cons_of_neg (by simpa using hblank)] at hnumbers
      obtain ⟨heq, hall⟩ := ih numbers hnumbers
      refine ⟨by rw [List.map_cons, linesKeys, if_pos hblank, heq], ?_⟩
      rw [List.map_cons]
      exact List.forall_mem_cons.mpr ⟨⟨cs, rfl, .inl hblank⟩, hall⟩
    · rw [List.map_cons, List.filter_cons_of_pos (by simpa using hblank),
        List.mapM_cons] at hnumbers
      obtain ⟨v, hv, hnumbers⟩ := Except.bind_eq_ok_iff.mp hnumbers
      obtain ⟨rest, hrest, hnumbers⟩ := Except.bind_eq_ok_iff.mp hnumbers
      cases hnumbers
      have hparse : Text.parseU64 (Text.trim cs) = .ok v := by
        cases hp : Text.parseU64 (Text.trim cs) with
        | error e =>
          rw [hp] at hv
          cases hv
        | ok v' =>
          rw [hp] at hv
          cases hv
          rfl
      obtain ⟨heq, hall⟩ := ih rest hrest
      refine ⟨?_, ?_⟩
      · rw [List.map_cons, linesKeys, if_neg hblank, hparse]
        exact congrArg (v.toNat :: ·) heq
      · rw [List.map_cons]
        exact List.forall_mem_cons.mpr ⟨⟨cs, rfl, .inr ⟨v, hparse⟩⟩, hall⟩

/-! ### One line -/

section Line

variable (env g slotBytes)

/-- A line that cannot be read ends the build with the error of the read. -/
private theorem readLine_error (st : List ℕ × ℕ) (e : IoError) :
    readLine env g slotBytes st (.error e) = throw (.error e) := rfl

/-- A blank line is skipped. -/
theorem readLine_blank (st : List ℕ × ℕ) (h : Text.trim cs = []) :
    readLine env g slotBytes st (.ok cs) = pure st := by
  rw [readLine, Outcome.ofExcept_ok, Effect.lift_ok_bind, if_pos h]

/-- A line that is no number of 64 bits ends the build with the message of the parser. -/
theorem readLine_invalid (st : List ℕ × ℕ) (hne : Text.trim cs ≠ []) {e : Text.ParseIntError}
    (h : Text.parseU64 (Text.trim cs) = .error e) :
    readLine env g slotBytes st (.ok cs) = throw (.error (.other e.message)) := by
  rw [readLine, Outcome.ofExcept_ok, Effect.lift_ok_bind, if_neg hne, h]

/-- A number is put behind the chunk, as long as this does not fill it. -/
theorem readLine_rowid (total : ℕ) (hne : Text.trim cs ≠ []) {v : UInt64}
    (h : Text.parseU64 (Text.trim cs) = .ok v) (hlt : chunk.length + 1 < CHUNK_ROWS) :
    readLine env g slotBytes (chunk, total) (.ok cs) = pure (chunk ++ [v.toNat], total) := by
  rw [readLine, Outcome.ofExcept_ok, Effect.lift_ok_bind, if_neg hne, h]
  dsimp only
  rw [if_neg]
  rw [List.length_append, List.length_singleton]
  exact Nat.ne_of_lt hlt

/-- The number that fills the chunk has the chunk written, and the next one starts empty. -/
theorem readLine_last (total : ℕ) (hne : Text.trim cs ≠ []) {v : UInt64}
    (h : Text.parseU64 (Text.trim cs) = .ok v) (hfull : chunk.length + 1 = CHUNK_ROWS) :
    readLine env g slotBytes (chunk, total) (.ok cs) =
      (do
        writeChunk env g slotBytes (chunk ++ [v.toNat])
        pure ([], total + (chunk ++ [v.toNat]).length)) := by
  rw [readLine, Outcome.ofExcept_ok, Effect.lift_ok_bind, if_neg hne, h]
  dsimp only
  rw [if_pos]
  rw [List.length_append, List.length_singleton]
  exact hfull

/-- Nothing is written at the end if the last chunk is empty. -/
private theorem writeTail_nil (total : ℕ) :
    writeTail env g slotBytes ([], total) = pure total := rfl

/-- A rest of whole grams is written at the end. -/
theorem writeTail_of_dvd (total : ℕ) (hne : chunk ≠ []) (hdvd : HEAD_W ∣ chunk.length) :
    writeTail env g slotBytes (chunk, total) =
      (do
        writeChunk env g slotBytes chunk
        pure (total + chunk.length)) := by
  simp [writeTail, hne, hdvd]

/-- A rest that ends inside a gram is refused, with the number of all row ids in the message. -/
theorem writeTail_of_not_dvd (total : ℕ) (hdvd : ¬ HEAD_W ∣ chunk.length) :
    writeTail env g slotBytes (chunk, total) = throw (.error (.invalidInput
      s!"keys file has {chunk.length + total} rowids, not a multiple of heads {HEAD_W}")) := by
  have hne : chunk ≠ [] := by
    rintro rfl
    exact hdvd (Nat.dvd_zero _)
  simp only [writeTail, hne, hdvd, if_false, not_false_eq_true, if_true]
  rfl

end Line

/-- A full chunk has whole grams. -/
theorem dvd_CHUNK_ROWS : HEAD_W ∣ CHUNK_ROWS := ⟨500000, Nat.mul_comm _ _⟩

/-! ### All lines -/

/-- Row ids that complete a chunk, and the chunks after it. -/
theorem chunks_of_full (hfull : chunk.length = CHUNK_ROWS) (keys : List ℕ) :
    chunks CHUNK_ROWS (chunk ++ keys) = chunk :: chunks CHUNK_ROWS keys := by
  rw [← hfull]
  exact chunks_append (by rw [hfull]; exact CHUNK_ROWS_pos) keys

/-- If all lines can be read and the row ids are those of whole grams, the loop and the rest write
the chunks of all row ids. The induction is on the lines, over a chunk that is not complete yet. -/
theorem readLines_eq (env : BuildEnv) (g : BadgeGather) (slotBytes : UInt64)
    (hlines : ∀ line ∈ lines, IsRowidLine line) (hlen : chunk.length < CHUNK_ROWS)
    (hdvd : HEAD_W ∣ (chunk ++ linesKeys lines).length) (total : ℕ) :
    (lines.foldlM (readLine env g slotBytes) (chunk, total) >>= writeTail env g slotBytes) =
      (do
        forM (chunks CHUNK_ROWS (chunk ++ linesKeys lines)) (writeChunk env g slotBytes)
        pure (total + (chunk ++ linesKeys lines).length)) := by
  -- the chunk that is being filled is what the first of the chunks begins with
  induction lines generalizing chunk total with
  | nil =>
    rw [linesKeys, List.append_nil] at hdvd ⊢
    rw [List.foldlM_nil, pure_bind]
    -- the rest is less than a chunk
    rcases eq_or_ne chunk [] with rfl | hne
    · rw [writeTail_nil, chunks_nil, List.forM_nil, pure_bind]
      rfl
    · rw [writeTail_of_dvd env g slotBytes total hne hdvd,
        chunks_of_length_le hne (Nat.le_of_lt hlen), List.forM_cons, List.forM_nil, bind_assoc]
      rfl
  | cons line lines ih =>
    obtain ⟨⟨cs, rfl, hline⟩, hlines'⟩ := List.forall_mem_cons.mp hlines
    rw [List.foldlM_cons]
    by_cases hblank : Text.trim cs = []
    · -- a blank line changes nothing
      rw [linesKeys, if_pos hblank] at hdvd ⊢
      rw [readLine_blank env g slotBytes _ hblank, pure_bind]
      exact ih hlines' hlen hdvd total
    · obtain ⟨v, hv⟩ := hline.resolve_left hblank
      have hkeys :
          chunk ++ linesKeys (.ok cs :: lines) = (chunk ++ [v.toNat]) ++ linesKeys lines := by
        rw [linesKeys, if_neg hblank, hv, List.append_assoc]
        rfl
      rw [hkeys] at hdvd ⊢
      rcases Nat.lt_or_ge (chunk.length + 1) CHUNK_ROWS with hlt | hge
      · -- the row id joins the chunk
        rw [readLine_rowid env g slotBytes total hblank hv hlt, pure_bind]
        exact ih hlines' (by rwa [List.length_append, List.length_singleton]) hdvd total
      · -- the row id completes the chunk, and the next one starts empty
        have hfull : (chunk ++ [v.toNat]).length = CHUNK_ROWS := by
          rw [List.length_append, List.length_singleton]
          omega
        have hsum : (chunk ++ [v.toNat] ++ linesKeys lines).length =
            CHUNK_ROWS + (linesKeys lines).length := by rw [List.length_append, hfull]
        have hrest : HEAD_W ∣ ([] ++ linesKeys lines).length := by
          rw [hsum] at hdvd
          exact (Nat.dvd_add_right dvd_CHUNK_ROWS).mp hdvd
        have hempty : ([] : List ℕ).length < CHUNK_ROWS := CHUNK_ROWS_pos
        have hih := ih hlines' hempty hrest (total + (chunk ++ [v.toNat]).length)
        rw [List.nil_append] at hih
        rw [readLine_last env g slotBytes total hblank hv (by omega),
          chunks_of_full hfull, List.forM_cons, bind_assoc, bind_assoc, bind_assoc]
        refine bind_congr fun _ => ?_
        rw [pure_bind, hih]
        refine bind_congr fun _ => ?_
        rw [hfull, hsum, Nat.add_assoc]

/-- The loop and the rest append records of the row ids, as far as the lines can be read. -/
theorem appends_readLines (hfits : Fits g (chunk ++ linesKeys lines))
    (hlen : chunk.length < CHUNK_ROWS) (total : ℕ) : Effect.Appends Writer.records
      (lines.foldlM (readLine env g slotBytes) (chunk, total) >>= writeTail env g slotBytes)
      (viewRecords g slotBytes (chunk ++ linesKeys lines)) := by
  induction lines generalizing chunk total with
  | nil =>
    rw [linesKeys, List.append_nil] at hfits ⊢
    rw [List.foldlM_nil, pure_bind]
    -- the end of the file: the last chunk is written, or refused
    by_cases hdvd : HEAD_W ∣ chunk.length
    · rcases eq_or_ne chunk [] with rfl | hne
      · exact Effect.appends_nil fun _ => rfl
      · rw [writeTail_of_dvd env g slotBytes total hne hdvd, viewRecords,
          chunks_of_length_le hne (Nat.le_of_lt hlen), List.flatMap_singleton,
          ← List.append_nil (chunkRecords g slotBytes chunk)]
        exact (appends_writeChunk hfits hne).bind fun _ => Effect.appends_nil fun _ => rfl
    · rw [writeTail_of_not_dvd env g slotBytes total hdvd]
      exact Effect.appends_of_error (fun _ => rfl) (fun _ _ h => by cases h) _
  | cons line lines ih =>
    rw [List.foldlM_cons]
    -- a line that is refused ends the loop, and nothing more is written
    have hfails : ∀ e, readLine env g slotBytes (chunk, total) line = throw e →
        Effect.Appends Writer.records
          ((readLine env g slotBytes (chunk, total) line >>= fun st =>
            lines.foldlM (readLine env g slotBytes) st) >>= writeTail env g slotBytes)
          (viewRecords g slotBytes (chunk ++ linesKeys (line :: lines))) := by
      intro e he
      rw [he]
      exact Effect.appends_of_error (fun _ => rfl) (fun _ _ h => by cases h) _
    cases line with
    | error e => exact hfails _ (readLine_error env g slotBytes _ e)
    | ok cs =>
      by_cases hblank : Text.trim cs = []
      -- a blank line changes nothing
      · rw [linesKeys, if_pos hblank] at hfits ⊢
        rw [readLine_blank env g slotBytes _ hblank, pure_bind]
        exact ih hfits hlen total
      · cases hv : Text.parseU64 (Text.trim cs) with
        | error e => exact hfails _ (readLine_invalid env g slotBytes _ hblank hv)
        | ok v =>
          have hkeys :
              chunk ++ linesKeys (.ok cs :: lines) = (chunk ++ [v.toNat]) ++ linesKeys lines := by
            rw [linesKeys, if_neg hblank, hv, List.append_assoc]
            rfl
          rw [hkeys] at hfits ⊢
          rcases Nat.lt_or_ge (chunk.length + 1) CHUNK_ROWS with hlt | hge
          -- the row id joins the chunk
          · rw [readLine_rowid env g slotBytes total hblank hv hlt, pure_bind]
            exact ih hfits (by rwa [List.length_append, List.length_singleton]) total
          -- the row id completes the chunk, which is written, and the next one starts empty
          · have hfull : (chunk ++ [v.toNat]).length = CHUNK_ROWS := by
              rw [List.length_append, List.length_singleton]
              omega
            rw [readLine_last env g slotBytes total hblank hv (by omega), viewRecords,
              chunks_of_full hfull, List.flatMap_cons, bind_assoc, bind_assoc]
            refine Effect.Appends.bind (appends_writeChunk
              (hfits.of_subset (List.subset_append_left _ _)) (by simp)) fun _ => ?_
            rw [pure_bind]
            have hrest : Fits g ([] ++ linesKeys lines) :=
              hfits.of_subset (List.subset_append_right _ _)
            exact ih hrest CHUNK_ROWS_pos _

/-- The loop and the rest return only if all lines can be read and the row ids are those of whole
grams. -/
theorem readLines_ok (hlen : chunk.length < CHUNK_ROWS) {n : ℕ}
    (h : (lines.foldlM (readLine env g slotBytes) (chunk, total) >>= writeTail env g slotBytes) w =
      (.ok n, w')) :
    (∀ line ∈ lines, IsRowidLine line) ∧ HEAD_W ∣ (chunk ++ linesKeys lines).length ∧
      n = total + (chunk ++ linesKeys lines).length := by
  induction lines generalizing chunk total w with
  | nil =>
    rw [linesKeys, List.append_nil]
    rw [List.foldlM_nil, pure_bind] at h
    -- the end of the file: what is left of the chunk is written if it holds whole records
    refine ⟨by simp, ?_⟩
    by_cases hdvd : HEAD_W ∣ chunk.length
    · refine ⟨hdvd, ?_⟩
      rcases eq_or_ne chunk [] with rfl | hne
      · cases h
        rfl
      · rw [writeTail_of_dvd env g slotBytes total hne hdvd] at h
        obtain ⟨_, t, -, ht⟩ := Effect.bind_eq_ok_iff.mp h
        cases ht
        rfl
    · rw [writeTail_of_not_dvd env g slotBytes total hdvd] at h
      cases h
  | cons line lines ih =>
    rw [List.foldlM_cons, bind_assoc] at h
    obtain ⟨st, t, hline, hrest⟩ := Effect.bind_eq_ok_iff.mp h
    cases line with
    | error e => cases hline
    | ok cs =>
      by_cases hblank : Text.trim cs = []
      · rw [readLine_blank env g slotBytes _ hblank] at hline
        cases hline
        -- a blank line changes nothing
        obtain ⟨hlines, hdvd, hn⟩ := ih hlen hrest
        rw [linesKeys, if_pos hblank]
        exact ⟨List.forall_mem_cons.mpr ⟨⟨cs, rfl, .inl hblank⟩, hlines⟩, hdvd, hn⟩
      · cases hv : Text.parseU64 (Text.trim cs) with
        | error e =>
          rw [readLine_invalid env g slotBytes _ hblank hv] at hline
          cases hline
        | ok v =>
          have hkeys :
              chunk ++ linesKeys (.ok cs :: lines) = (chunk ++ [v.toNat]) ++ linesKeys lines := by
            rw [linesKeys, if_neg hblank, hv, List.append_assoc]
            rfl
          rw [hkeys]
          rcases Nat.lt_or_ge (chunk.length + 1) CHUNK_ROWS with hlt | hge
          -- the row id joins the chunk
          · rw [readLine_rowid env g slotBytes total hblank hv hlt] at hline
            cases hline
            obtain ⟨hlines, hdvd, hn⟩ :=
              ih (by rwa [List.length_append, List.length_singleton]) hrest
            exact ⟨List.forall_mem_cons.mpr ⟨⟨cs, rfl, .inr ⟨v, hv⟩⟩, hlines⟩, hdvd, hn⟩
          -- the row id completes the chunk, which is written, and the next one starts empty
          · have hfull : (chunk ++ [v.toNat]).length = CHUNK_ROWS := by
              rw [List.length_append, List.length_singleton]
              omega
            rw [readLine_last env g slotBytes total hblank hv (by omega)] at hline
            obtain ⟨_, t', -, hst⟩ := Effect.bind_eq_ok_iff.mp hline
            cases hst
            have hempty : ([] : List ℕ).length < CHUNK_ROWS := CHUNK_ROWS_pos
            obtain ⟨hlines, hdvd, hn⟩ := ih hempty hrest
            rw [List.nil_append] at hdvd hn
            have hsum : (chunk ++ [v.toNat] ++ linesKeys lines).length =
                CHUNK_ROWS + (linesKeys lines).length := by rw [List.length_append, hfull]
            rw [hfull] at hn
            rw [hsum]
            exact ⟨List.forall_mem_cons.mpr ⟨⟨cs, rfl, .inr ⟨v, hv⟩⟩, hlines⟩,
              Nat.dvd_add dvd_CHUNK_ROWS hdvd, by omega⟩

/-! ### The view -/

/-- From lines that can be read and have whole grams together, the view of their row ids is
written. -/
theorem writeLinesView_eq (env : BuildEnv) (g : BadgeGather) (slotBytes : UInt64)
    (keysOut : Option String) (hlines : ∀ line ∈ lines, IsRowidLine line)
    (hpos : 0 < (linesKeys lines).length) (hdvd : HEAD_W ∣ (linesKeys lines).length) :
    writeLinesView env g lines slotBytes keysOut =
      writeKeysView env g (linesKeys lines) slotBytes keysOut := by
  have hempty : ([] : List ℕ).length < CHUNK_ROWS := CHUNK_ROWS_pos
  have hread := readLines_eq env g slotBytes hlines hempty hdvd 0
  rw [List.nil_append, Nat.zero_add] at hread
  rw [writeLinesView, writeKeysView]
  refine bind_congr fun _ => ?_
  rw [← bind_assoc, hread, bind_assoc]
  refine bind_congr fun _ => ?_
  rw [pure_bind, if_neg (by omega)]

/-- The view of the row ids of lines is written only if all lines can be read, and have whole grams,
at least one, together. -/
theorem writeLinesView_ok {keysOut : Option String} {n : ℕ}
    (h : writeLinesView env g lines slotBytes keysOut w = (.ok n, w')) :
    (∀ line ∈ lines, IsRowidLine line) ∧ HEAD_W ∣ (linesKeys lines).length ∧
      0 < (linesKeys lines).length := by
  rw [writeLinesView] at h
  obtain ⟨_, t, -, h⟩ := Effect.bind_eq_ok_iff.mp h
  rw [← bind_assoc] at h
  obtain ⟨total, t', hread, h⟩ := Effect.bind_eq_ok_iff.mp h
  have hempty : ([] : List ℕ).length < CHUNK_ROWS := CHUNK_ROWS_pos
  obtain ⟨hlines, hdvd, htotal⟩ := readLines_ok hempty hread
  rw [List.nil_append] at hdvd htotal
  refine ⟨hlines, hdvd, ?_⟩
  rw [Nat.zero_add] at htotal
  by_contra hzero
  rw [if_pos (.inl (by omega))] at h
  cases h

/-- Two builds leave the same view, the same keys file if they write one, and manifests with the
same number of grams, number of rows and slot width. -/
structure LeaveAlike (keysOut : Option String) (files files' : ViewFiles) : Prop where
  /-- The bytes of the view. -/
  view_eq : files.view = files'.view
  /-- The lines of the keys file. -/
  keys_eq : keysOut ≠ none → files.keys = files'.keys
  /-- The fields of the manifest. -/
  manifest_eq : ∀ field ∈ ["grans", "rows", "slot_bytes"],
    (files.manifest.bind fun m => m.get field) = files'.manifest.bind fun m => m.get field

/-- The manifests of two sources do not differ in the sizes of the view. -/
private theorem get_keysManifest_eq (slotBytes : UInt64) (source source' : String)
    (keysOut : Option String)
    (total : ℕ) {field : String} (hfield : field ∈ ["grans", "rows", "slot_bytes"]) :
    (keysManifest slotBytes source keysOut total).get field =
      (keysManifest slotBytes source' keysOut total).get field := by
  simp only [List.mem_cons, List.not_mem_nil, or_false] at hfield
  rcases hfield with rfl | rfl | rfl <;> rfl

/-- When nothing fails (`henv`, `henv'`), the keys of the text are read (`hread`) and are in range
(`hfits`), and a slot holds a record (`hslot`), a view is built from a text of row ids iff their
number is a positive multiple of sixteen, and then the build leaves what the build from the row ids
themselves leaves. -/
theorem streaming_eq {env env' : BuildEnv} (henv : env.Faultless) (henv' : env'.Faultless)
    {text : List Char} (hread : readKeys (KeyLines.ofText text) = .ok keys) (hfits : Fits g keys)
    (hslot : RECORD_BYTES ≤ slotBytes.toNat) (keysOut : Option String) (files files' : ViewFiles) :
    ((buildViewFromKeysFile env g (KeyLines.ofText text) slotBytes keysOut files).1 = .ok () ↔
        0 < keys.length ∧ HEAD_W ∣ keys.length) ∧
      ((buildViewFromKeysFile env g (KeyLines.ofText text) slotBytes keysOut files).1 = .ok () →
        (buildViewFromKeys env' g keys slotBytes keysOut files').1 = .ok () ∧
          LeaveAlike keysOut
            (buildViewFromKeysFile env g (KeyLines.ofText text) slotBytes keysOut files).2
            (buildViewFromKeys env' g keys slotBytes keysOut files').2) := by
  obtain ⟨rfl, hlines⟩ := linesKeys_of_readKeys hread
  -- the file of a positive number of whole grams
  have hbuilt : 0 < (linesKeys ((Text.lines text).map .ok)).length ∧
      HEAD_W ∣ (linesKeys ((Text.lines text).map .ok)).length →
      buildViewFromKeysFile env g (KeyLines.ofText text) slotBytes keysOut files =
        (.ok (), ⟨some (viewRecords g slotBytes (linesKeys ((Text.lines text).map .ok))).flatten,
          some (keysManifest slotBytes
            s!"provided-keys-file:{(linesKeys ((Text.lines text).map .ok)).length} shards={g.layout.shards}"
            keysOut (linesKeys ((Text.lines text).map .ok)).length),
          keysOut.elim files.keys fun _ =>
            some (keysText (linesKeys ((Text.lines text).map .ok)))⟩) := by
    rintro ⟨hpos, hdvd⟩
    rw [KeyLines.ofText, buildViewFromKeysFile,
      writeLinesView_eq env g slotBytes keysOut hlines hpos hdvd, writeFiles_eq_ok henv
        ((makes_writeKeysView env hslot hfits keysOut).returns fun c _ => henv.works c)]
    cases keysOut <;> rfl
  have honly :
      (buildViewFromKeysFile env g (KeyLines.ofText text) slotBytes keysOut files).1 = .ok () →
        0 < (linesKeys ((Text.lines text).map .ok)).length ∧
          HEAD_W ∣ (linesKeys ((Text.lines text).map .ok)).length := by
    intro h
    obtain ⟨total, t, hbody⟩ := writeFiles_ok h
    obtain ⟨-, hdvd, hpos⟩ := writeLinesView_ok hbody
    exact ⟨hpos, hdvd⟩
  refine ⟨⟨honly, fun h => by rw [hbuilt h]⟩, fun h => ?_⟩
  obtain ⟨hpos, hdvd⟩ := honly h
  rw [hbuilt ⟨hpos, hdvd⟩, buildViewFromKeys_eq_ok henv' hslot hfits hdvd]
  refine ⟨rfl, rfl, fun hkeys => ?_, fun field hfield => get_keysManifest_eq _ _ _ _ _ hfield⟩
  cases keysOut with
  | none => exact absurd rfl hkeys
  | some path => rfl

/-- A text of sixteen times the row id 0. -/
def sixteenLines : List Char := (List.replicate 16 ['0', '\n']).flatten

theorem streaming_eq_sixteenLines :
    (buildViewFromKeysFile faultlessEnv sevens (KeyLines.ofText sixteenLines) 4096 none noFiles).1 =
      .ok () ∧
      LeaveAlike none
        (buildViewFromKeysFile faultlessEnv sevens (KeyLines.ofText sixteenLines)
          4096 none noFiles).2
        (buildViewFromKeys faultlessEnv sevens (List.replicate 16 0) 4096 none noFiles).2 := by
  have hread : readKeys (KeyLines.ofText sixteenLines) = .ok (List.replicate 16 0) := by rfl
  obtain ⟨hiff, halike⟩ := streaming_eq faultless_faultlessEnv faultless_faultlessEnv hread
    (fits_sevens 16) (show RECORD_BYTES ≤ (4096 : UInt64).toNat by decide) none noFiles noFiles
  have hok := hiff.mpr (by decide)
  exact ⟨hok, (halike hok).2⟩

end View

end EngramDB
