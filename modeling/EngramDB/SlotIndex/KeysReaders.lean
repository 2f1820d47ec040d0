import EngramDB.Foundations.NumberLines
import EngramDB.Io.View.Build
import EngramDB.SlotIndex.Reader

/-!
# The readers of a keys file

A keys file is read by four loops: `read_keys` and the verification of an index iterate over its
lines, the builders of a view and of an index read one line after another into a string. `read_keys`
stops at the first line that is not UTF-8, as at the end of the file, and the other loops return the
error.

* `reads_readLine`, `reads_pass1Line`, `reads_verifyLine`: three of the loops hand on the numbers
  and fail at every other line that is not blank;
* `readKeys_eq`: `read_keys` does so on the lines in front of the first one that is not UTF-8;
* `keysReadAlike_iff`: so all readers agree iff there is no such line, or another error comes first.
-/

namespace EngramDB

open Text

/-- The text of the error of a line that is not UTF-8. -/
def invalidUtf8 : String := "stream did not contain valid UTF-8"

/-- A line, or the error of a line that is not UTF-8. -/
def orInvalid {ε : Type} (error : String → ε) : Option (List Char) → Except ε (List Char)
  | some line => .ok line
  | none => .error (error invalidUtf8)

namespace View

/-- The lines of a keys file that `read_line` gives. -/
def keyReads (content : Bytes) : List (Except IoError (List Char)) :=
  (rawLines content).map fun raw => orInvalid .other (decode raw)

/-- The lines of a keys file that `lines` gives. -/
def keyLines (content : Bytes) : KeyLines :=
  .ok ((rawLines content).map fun raw => orInvalid .other (decodeStripped raw))

/-- What the builder of a view does with a number. -/
def pushKey (env : BuildEnv) (g : BadgeGather) (slotBytes : UInt64) (st : List ℕ × ℕ) (v : UInt64) :
    Write (List ℕ × ℕ) :=
  let chunk := st.1 ++ [v.toNat]
  if chunk.length = CHUNK_ROWS then do
    writeChunk env g slotBytes chunk
    return ([], st.2 + chunk.length)
  else return (chunk, st.2)

end View

namespace SlotIndex

/-- The lines of a keys file that `read_line` gives. -/
def keyReads (content : Bytes) : List (Except String (List Char)) :=
  (rawLines content).map fun raw => orInvalid id (decode raw)

/-- The lines of a keys file that `lines` gives. -/
def keyLines (content : Bytes) : List (Except String (List Char)) :=
  (rawLines content).map fun raw => orInvalid id (decodeStripped raw)

/-- What the first pass does with a number. -/
def pass1Number (numBuckets : ℕ) (st : Pass1) (v : UInt64) : Except String Pass1 :=
  let parts := st.parts ++ [v]
  if parts.length = HEADS then pass1Gram numBuckets st parts else .ok { st with parts }

/-- What a verification does with a number. -/
def verifyNumber (st : Verify) (v : UInt64) : Outcome String Verify :=
  let parts := st.parts ++ [v]
  if h : parts.length = HEADS then
    match st.reader.containsSlot ⟨parts, h⟩ st.slot with
    | (.error e, _) => .error e
    | (.ok false, _) =>
      .error (.error (s!"slot mismatch at gram {st.slot}: expected {st.slot}, "
        ++ "no matching record had that slot"))
    | (.ok true, reader) => .ok ⟨reader, [], st.slot + 1, st.verified + 1⟩
  else .ok { st with parts }

end SlotIndex

/-! ### The loops -/

/-- The builder of a view hands on the numbers of a keys file. -/
theorem View.reads_readLine (env : BuildEnv) (g : BadgeGather) (slotBytes : UInt64) :
    Text.Reads (fun st raw => readLine env g slotBytes st (orInvalid .other (decode raw)))
      (pushKey env g slotBytes) fun e => throw (.error e) := by
  refine Text.Reads.of_line (fun _ => rfl) ?_ ?_ ?_ ?_
  · intro raw h
    refine ⟨fun _ => .other invalidUtf8, fun st => ?_⟩
    simp only [readLine, h, orInvalid, Outcome.ofExcept_error, Effect.lift_error_bind]
  · intro st raw cs h hblank
    simp only [readLine, h, orInvalid, Outcome.ofExcept_ok, Effect.lift_ok_bind, hblank, if_true]
  · intro st raw cs v h hne hparse
    simp only [readLine, h, orInvalid, Outcome.ofExcept_ok, Effect.lift_ok_bind, if_neg hne,
      hparse, pushKey]
  · intro raw cs p h hne hparse
    refine ⟨fun _ => .other p.message, fun st => ?_⟩
    simp only [readLine, h, orInvalid, Outcome.ofExcept_ok, Effect.lift_ok_bind, if_neg hne, hparse]

namespace SlotIndex

/-- The first pass hands on the numbers of a keys file. -/
theorem reads_pass1Line (numBuckets : ℕ) :
    Text.Reads (fun st raw => pass1Line numBuckets st (orInvalid id (decode raw)))
      (pass1Number numBuckets)
      fun e => .error e := by
  refine Text.Reads.of_line (fun _ => rfl) ?_ ?_ ?_ ?_
  · intro raw h
    refine ⟨fun _ => invalidUtf8, fun st => ?_⟩
    rw [h]
    rfl
  · intro st raw cs h hblank
    simp only [pass1Line, h, orInvalid, Except.ok_bind, hblank, if_true]
  · intro st raw cs v h hne hparse
    simp only [pass1Line, h, orInvalid, Except.ok_bind, if_neg hne, hparse, pass1Number]
    rfl
  · intro raw cs p h hne hparse
    refine ⟨fun st =>
      s!"invalid rowid at line {st.slot * HEADS + st.parts.length + 1}: {p.message}", fun st => ?_⟩
    simp only [pass1Line, h, orInvalid, Except.ok_bind, if_neg hne, hparse]
    rfl

/-- A verification hands on the numbers of a keys file. -/
theorem reads_verifyLine :
    Text.Reads (fun st raw => verifyLine st (orInvalid id (decodeStripped raw))) verifyNumber
      fun e => .error (.error e) := by
  refine Text.Reads.of_line trim_decodeStripped ?_ ?_ ?_ ?_
  · intro raw h
    refine ⟨fun _ => invalidUtf8, fun st => ?_⟩
    rw [h]
    rfl
  · intro st raw cs h hblank
    simp only [verifyLine, h, orInvalid, Outcome.ofExcept_ok, Except.ok_bind, hblank, if_true]
  · intro st raw cs v h hne hparse
    simp only [verifyLine, h, orInvalid, Outcome.ofExcept_ok, Except.ok_bind, if_neg hne, hparse,
      verifyNumber]
    rfl
  · intro raw cs p h hne hparse
    refine ⟨fun _ => p.message, fun st => ?_⟩
    simp only [verifyLine, h, orInvalid, Outcome.ofExcept_ok, Except.ok_bind, if_neg hne, hparse]
    rfl

end SlotIndex

/-! ### Reading all keys -/

namespace View

section ReadKeys

variable {cs : List Char} {lines : List (Except IoError (List Char))}

theorem readKeys_blank (h : trim cs = []) :
    readKeys (.ok (.ok cs :: lines)) = readKeys (.ok lines) := by
  have hread : (Except.ok cs :: lines : List (Except IoError (List Char))).takeWhile
      (fun line => line.isOk) = .ok cs :: lines.takeWhile fun line => line.isOk := rfl
  simp only [readKeys, hread, List.filterMap_cons, Except.toOption, List.map_cons, h,
    List.filter_cons, ne_eq, not_true_eq_false, decide_false, Bool.false_eq_true, if_false]

theorem readKeys_number {v : UInt64} (hne : trim cs ≠ []) (h : parseU64 (trim cs) = .ok v) :
    readKeys (.ok (.ok cs :: lines)) = (readKeys (.ok lines)).map (v.toNat :: ·) := by
  have hread : (Except.ok cs :: lines : List (Except IoError (List Char))).takeWhile
      (fun line => line.isOk) = .ok cs :: lines.takeWhile fun line => line.isOk := rfl
  simp only [readKeys, hread, List.filterMap_cons, Except.toOption, List.map_cons,
    List.filter_cons, ne_eq, hne, not_false_eq_true, decide_true, if_true, List.mapM_cons, h]
  rcases List.mapM (m := Except IoError) _ _ with e | numbers <;> rfl

private theorem readKeys_error {p : ParseIntError} (hne : trim cs ≠ [])
    (h : parseU64 (trim cs) = .error p) :
    readKeys (.ok (.ok cs :: lines)) = .error (.other p.message) := by
  have hread : (Except.ok cs :: lines : List (Except IoError (List Char))).takeWhile
      (fun line => line.isOk) = .ok cs :: lines.takeWhile fun line => line.isOk := rfl
  simp only [readKeys, hread, List.filterMap_cons, Except.toOption, List.map_cons,
    List.filter_cons, ne_eq, hne, not_false_eq_true, decide_true, if_true, List.mapM_cons, h]
  rfl

/-- A line that is UTF-8 (`h`) is decoded by `read_keys`, and is classified by what is left of it
without white space. -/
theorem exists_decodeStripped {raw : Bytes} (h : isUtf8 raw) :
    ∃ cs, decodeStripped raw = some cs ∧ classify raw = lineOf (trim cs) := by
  obtain ⟨line, hline⟩ := Option.isSome_iff_exists.mp h
  refine ⟨stripEnd line, by rw [decodeStripped, hline]; rfl, ?_⟩
  rw [classify, hline, trim_stripEnd]
  rfl

/-- Without malformed lines in front of the first one that is not UTF-8, their numbers are read. -/
theorem readKeys_eq_ok {raws : List Bytes}
    (h : ∀ raw ∈ raws.takeWhile isUtf8, classify raw ≠ .malformed) :
    readKeys (.ok (raws.map fun raw => orInvalid .other (decodeStripped raw))) =
      .ok ((numbersOf (raws.takeWhile isUtf8)).map UInt64.toNat) := by
  induction raws with
  | nil => rfl
  | cons raw raws ih =>
    rw [List.map_cons]
    by_cases hraw : isUtf8 raw
    · rw [List.takeWhile_cons_of_pos hraw] at h ⊢
      have hrest := ih fun raw hmem => h raw (List.mem_cons_of_mem _ hmem)
      obtain ⟨cs, hcs, hkind⟩ := exists_decodeStripped hraw
      rw [hcs, orInvalid, numbersOf]
      cases hline : lineOf (trim cs) with
      | blank =>
        rw [readKeys_blank (lineOf_eq_blank_iff.mp hline), hrest,
          List.filterMap_cons_none (by rw [hkind, hline])]
        rfl
      | number v =>
        obtain ⟨hne, hparse⟩ := lineOf_eq_number_iff.mp hline
        rw [readKeys_number hne hparse, hrest,
          List.filterMap_cons_some (b := v) (by rw [hkind, hline])]
        rfl
      | malformed => exact absurd (hkind.trans hline) (h raw (by simp))
    -- a line that is not UTF-8 ends the keys, for the reader and for `takeWhile`
    · have hnone : decodeStripped raw = none := by
        rw [decodeStripped, Option.not_isSome_iff_eq_none.mp hraw]
        rfl
      rw [List.takeWhile_cons_of_neg hraw, hnone]
      rfl

/-- A malformed line in front of the first one that is not UTF-8 is an error. -/
private theorem readKeys_eq_error {raws : List Bytes}
    (h : ∃ raw ∈ raws.takeWhile isUtf8, classify raw = .malformed) :
    ∃ e, readKeys (.ok (raws.map fun raw => orInvalid .other (decodeStripped raw))) = .error e := by
  induction raws with
  | nil =>
    obtain ⟨raw, hmem, -⟩ := h
    cases hmem
  | cons raw raws ih =>
    obtain ⟨bad, hmem, hbad⟩ := h
    by_cases hraw : isUtf8 raw
    · rw [List.takeWhile_cons_of_pos hraw] at hmem
      obtain ⟨cs, hcs, hkind⟩ := exists_decodeStripped hraw
      -- the malformed line is this one or a later one
      have hlater : classify raw ≠ .malformed → ∃ e, readKeys (.ok (raws.map fun raw =>
          orInvalid .other (decodeStripped raw))) = .error e := fun hgood =>
        ih ⟨bad, (List.mem_cons.mp hmem).resolve_left fun heq => hgood (heq ▸ hbad), hbad⟩
      rw [List.map_cons, hcs, orInvalid]
      cases hline : lineOf (trim cs) with
      | blank =>
        rw [readKeys_blank (lineOf_eq_blank_iff.mp hline)]
        exact hlater (by rw [hkind, hline]; rintro ⟨⟩)
      | number v =>
        obtain ⟨hne, hparse⟩ := lineOf_eq_number_iff.mp hline
        obtain ⟨e, he⟩ := hlater (by rw [hkind, hline]; rintro ⟨⟩)
        exact ⟨e, by rw [readKeys_number hne hparse, he]; rfl⟩
      | malformed =>
        obtain ⟨hne, p, hparse⟩ := lineOf_eq_malformed_iff.mp hline
        exact ⟨_, readKeys_error hne hparse⟩
    · rw [List.takeWhile_cons_of_neg hraw] at hmem
      cases hmem

end ReadKeys

end View

/-! ### All readers -/

/-- Every reader returns an error: three of them when they have handed on the numbers `ns`. -/
structure AllFail (content : Bytes) (ns : List UInt64) : Prop where
  /-- `read_keys`. -/
  readKeys : ∃ e, View.readKeys (View.keyLines content) = .error e
  /-- `build_view_from_keys_file`. -/
  buildView : ∀ env g slotBytes, ∃ e : List ℕ × ℕ → IoError, ∀ st,
    (View.keyReads content).foldlM (View.readLine env g slotBytes) st =
      ns.foldlM (View.pushKey env g slotBytes) st >>= fun st => throw (.error (e st))
  /-- The first pass of `build_from_keys_file`. -/
  pass1 : ∀ numBuckets, ∃ e : SlotIndex.Pass1 → String, ∀ st,
    (SlotIndex.keyReads content).foldlM (SlotIndex.pass1Line numBuckets) st =
      ns.foldlM (SlotIndex.pass1Number numBuckets) st >>= fun st => .error (e st)
  /-- `verify_from_keys_file`. -/
  verify : ∃ e : SlotIndex.Verify → String, ∀ st,
    (SlotIndex.keyLines content).foldlM SlotIndex.verifyLine st =
      ns.foldlM SlotIndex.verifyNumber st >>= fun st => .error (.error (e st))

/-- Every reader reads the numbers `ns`. -/
structure AllRead (content : Bytes) (ns : List UInt64) : Prop where
  /-- `read_keys`. -/
  readKeys : View.readKeys (View.keyLines content) = .ok (ns.map UInt64.toNat)
  /-- `build_view_from_keys_file`. -/
  buildView :
    ∀ env g slotBytes st, (View.keyReads content).foldlM (View.readLine env g slotBytes) st =
    ns.foldlM (View.pushKey env g slotBytes) st
  /-- The first pass of `build_from_keys_file`. -/
  pass1 : ∀ numBuckets st, (SlotIndex.keyReads content).foldlM (SlotIndex.pass1Line numBuckets) st =
    ns.foldlM (SlotIndex.pass1Number numBuckets) st
  /-- `verify_from_keys_file`. -/
  verify : ∀ st, (SlotIndex.keyLines content).foldlM SlotIndex.verifyLine st =
    ns.foldlM SlotIndex.verifyNumber st

/-- The readers of a keys file agree: some line is malformed and all of them return an error, or
they all read the numbers of the lines that are not blank. -/
def ReadAlike (content : Bytes) : Prop :=
  ((∃ raw ∈ rawLines content, classify raw = .malformed) ∧
      AllFail content (numbersOf (wellFormed (rawLines content)))) ∨
    ((∀ raw ∈ rawLines content, classify raw ≠ .malformed) ∧
      AllRead content (numbersOf (rawLines content)))

/-- When every line is read, every reader reads all numbers. -/
private theorem allRead {content : Bytes}
    (h : ∀ raw ∈ rawLines content, classify raw ≠ .malformed) :
    AllRead content (numbersOf (rawLines content)) where
  readKeys := by
    have hvalid : ∀ raw ∈ rawLines content, isUtf8 raw := fun raw hraw => by
      by_contra hnone
      refine h raw hraw ?_
      rw [classify, Option.not_isSome_iff_eq_none.mp hnone]
      rfl
    have hall : (rawLines content).takeWhile isUtf8 = rawLines content :=
      List.takeWhile_eq_self_iff.mpr hvalid
    have hgood : ∀ raw ∈ (rawLines content).takeWhile isUtf8, classify raw ≠ .malformed := by
      rwa [hall]
    have hread := View.readKeys_eq_ok hgood
    rwa [hall] at hread
  buildView env g slotBytes st := by
    rw [View.keyReads, List.foldlM_map]
    exact (View.reads_readLine env g slotBytes).foldlM_eq h st
  pass1 numBuckets st := by
    rw [SlotIndex.keyReads, List.foldlM_map]
    exact (SlotIndex.reads_pass1Line numBuckets).foldlM_eq h st
  verify st := by
    rw [SlotIndex.keyLines, List.foldlM_map]
    exact SlotIndex.reads_verifyLine.foldlM_eq h st

/-- When a malformed line comes before any line that is not text (`h`), every reader fails. -/
theorem allFail {content : Bytes}
    (h : ∃ raw ∈ (rawLines content).takeWhile isUtf8, classify raw = .malformed) :
    AllFail content (numbersOf (wellFormed (rawLines content))) := by
  have hbad : ∃ raw ∈ rawLines content, classify raw = .malformed := by
    obtain ⟨raw, hraw, hmal⟩ := h
    exact ⟨raw, (List.takeWhile_prefix _).subset hraw, hmal⟩
  refine ⟨View.readKeys_eq_error h, fun env g slotBytes => ?_, fun numBuckets => ?_, ?_⟩
  · simp only [View.keyReads, List.foldlM_map]
    exact (View.reads_readLine env g slotBytes).foldlM_eq_fail (fun _ _ => rfl) hbad
  · simp only [SlotIndex.keyReads, List.foldlM_map]
    exact (SlotIndex.reads_pass1Line numBuckets).foldlM_eq_fail (fun _ _ => rfl) hbad
  · simp only [SlotIndex.keyLines, List.foldlM_map]
    exact SlotIndex.reads_verifyLine.foldlM_eq_fail (fun _ _ => rfl) hbad

/-- If `read_keys` stops early, it returns what it has read. -/
theorem not_readAlike {content : Bytes} (hinvalid : ∃ raw ∈ rawLines content, ¬ isUtf8 raw)
    (hgood : ∀ raw ∈ (rawLines content).takeWhile isUtf8, classify raw ≠ .malformed) :
    ¬ ReadAlike content := by
  have hread := View.readKeys_eq_ok hgood
  rintro (⟨-, hfail⟩ | ⟨hall, -⟩)
  · obtain ⟨e, he⟩ := hfail.readKeys
    rw [View.keyLines, hread] at he
    cases he
  · obtain ⟨raw, hraw, hnone⟩ := hinvalid
    refine hall raw hraw ?_
    rw [classify, Option.not_isSome_iff_eq_none.mp hnone]
    rfl

/-- The readers of a keys file agree iff every line is UTF-8, or a line in front of the first one
that is not is neither blank nor a number: `read_keys` takes that one for the end of the file. -/
theorem keysReadAlike_iff (content : Bytes) :
    ReadAlike content ↔ (∀ raw ∈ rawLines content, isUtf8 raw) ∨
      ∃ raw ∈ (rawLines content).takeWhile isUtf8, classify raw = .malformed := by
  constructor
  · intro h
    by_contra hnot
    push Not at hnot
    obtain ⟨⟨raw, hraw, hinvalid⟩, hgood⟩ := hnot
    exact not_readAlike ⟨raw, hraw, hinvalid⟩ hgood h
  · rintro (hvalid | hbad)
    · have hall : (rawLines content).takeWhile isUtf8 = rawLines content :=
        List.takeWhile_eq_self_iff.mpr hvalid
      by_cases hbad : ∃ raw ∈ rawLines content, classify raw = .malformed
      · exact .inl ⟨hbad, allFail (by rwa [hall])⟩
      · push Not at hbad
        exact .inr ⟨hbad, allRead hbad⟩
    · obtain ⟨raw, hraw, hmal⟩ := hbad
      exact .inl ⟨⟨raw, (List.takeWhile_prefix _).subset hraw, hmal⟩, allFail ⟨raw, hraw, hmal⟩⟩

/-- Sixteen sevens, and then sixteen lines of a byte that is not UTF-8. -/
def brokenKeys : Bytes :=
  (List.replicate 16 [55, 10]).flatten ++ (List.replicate 16 [255, 10]).flatten

theorem not_readAlike_brokenKeys : ¬ ReadAlike brokenKeys := by
  have hlines :
      rawLines brokenKeys = List.replicate 16 [55, 10] ++ List.replicate 16 [255, 10] := by decide
  have hseven : classify [55, 10] = .number 7 := by decide +kernel
  have hbroken : isUtf8 [255, 10] = false := by decide +kernel
  refine not_readAlike ⟨[255, 10], ?_, by rw [hbroken]; decide⟩ fun raw hraw => ?_
  · rw [hlines]
    simp
  · -- the lines in front are the sevens
    have hmem := (List.takeWhile_prefix _).subset hraw
    have hutf8 := List.mem_takeWhile_imp hraw
    rw [hlines, List.mem_append] at hmem
    rcases hmem with hmem | hmem
    · rw [List.eq_of_mem_replicate hmem, hseven]
      rintro ⟨⟩
    · rw [List.eq_of_mem_replicate hmem, hbroken] at hutf8
      cases hutf8

end EngramDB
