import EngramDB.Foundations.Text
import Mathlib.Control.Basic
import Mathlib.Data.List.TakeWhile

/-!
# Files with a number on every line

A file is a list of bytes. It is cut into lines behind its line feeds, and a line is read as UTF-8.
There are two readers of lines: `decode` leaves the end of the line where it is, and
`decodeStripped` strips it. `Line` tells what a line is after it is trimmed.

* `trim_decodeStripped`: the two readers agree on a trimmed line;
* `Reads.foldlM_eq`, `Reads.foldlM_eq_fail`: a loop over lines that skips the blank ones and fails
  at the malformed ones is a loop over the numbers, as far as the first malformed line.
-/

namespace EngramDB

namespace Text

/-- The lines of a file, where `line` was read of the current line. -/
def rawLinesFrom (line : List UInt8) : List UInt8 → List (List UInt8)
  | [] => if line = [] then [] else [line]
  | b :: bs => if b = 10 then (line ++ [b]) :: rawLinesFrom [] bs else rawLinesFrom (line ++ [b]) bs

/-- The lines of a file with their ends. The last line needs no end. -/
def rawLines (content : List UInt8) : List (List UInt8) := rawLinesFrom [] content

/-- A line as it is read into a string, if it is UTF-8. -/
def decode (raw : List UInt8) : Option (List Char) :=
  (ByteArray.mk raw.toArray).utf8Decode?.map Array.toList

/-- A line without its line feed and the carriage return in front of it. -/
def stripEnd (line : List Char) : List Char :=
  if line.getLast? = some '\n' then
    if line.dropLast.getLast? = some '\r' then line.dropLast.dropLast else line.dropLast
  else line

/-- A line as an iterator over lines gives it. -/
def decodeStripped (raw : List UInt8) : Option (List Char) := (decode raw).map stripEnd

/-- The line is UTF-8. -/
def isUtf8 (raw : List UInt8) : Bool := (decode raw).isSome

/-- What a line is. -/
inductive Line where
  /-- There is only white space. -/
  | blank
  /-- A number of 64 bits. -/
  | number (v : UInt64)
  /-- It is not UTF-8, or anything else. -/
  | malformed
deriving DecidableEq

/-- What a trimmed line is. -/
def lineOf (t : List Char) : Line :=
  if t = [] then .blank
  else match parseU64 t with
    | .ok v => .number v
    | .error _ => .malformed

/-- What a line of a file is. -/
def classify (raw : List UInt8) : Line :=
  (decode raw).elim .malformed fun line => lineOf (trim line)

/-- The numbers of lines. -/
def numbersOf (raws : List (List UInt8)) : List UInt64 :=
  raws.filterMap fun raw => match classify raw with
    | .number v => some v
    | _ => none

section Lines

variable {t : List Char} {v : UInt64}

theorem lineOf_eq_blank_iff : lineOf t = .blank ↔ t = [] := by
  rw [lineOf]
  split_ifs with h
  · exact iff_of_true rfl h
  · cases parseU64 t <;> exact iff_of_false (by rintro ⟨⟩) h

theorem lineOf_eq_number_iff : lineOf t = .number v ↔ t ≠ [] ∧ parseU64 t = .ok v := by
  rw [lineOf]
  split_ifs with h
  · exact iff_of_false (by rintro ⟨⟩) fun hne => hne.1 h
  · cases parseU64 t with
    | ok w => simp [h]
    | error e => exact iff_of_false (by rintro ⟨⟩) (by rintro ⟨-, ⟨⟩⟩)

theorem lineOf_eq_malformed_iff : lineOf t = .malformed ↔ t ≠ [] ∧ ∃ e, parseU64 t = .error e := by
  rw [lineOf]
  split_ifs with h
  · exact iff_of_false (by rintro ⟨⟩) fun hne => hne.1 h
  · cases parseU64 t with
    | ok w => exact iff_of_false (by rintro ⟨⟩) (by rintro ⟨-, -, ⟨⟩⟩)
    | error e => exact iff_of_true rfl ⟨h, e, rfl⟩

/-- What a line is that a reader gives, if the readers agree on it when it is trimmed. -/
theorem classify_eq {raw : List UInt8} {line : Option (List Char)}
    (hline : line.map trim = (decode raw).map trim) :
    classify raw = line.elim .malformed fun cs => lineOf (trim cs) := by
  have helim : ∀ x : Option (List Char), x.elim Line.malformed (fun cs => lineOf (trim cs)) =
      (x.map trim).elim .malformed lineOf := fun x => by cases x <;> rfl
  rw [classify, helim, helim, hline]

end Lines

section Trim

theorem dropWhile_append_whitespace {line : List Char} {c : Char} (hc : isWhitespace c = true) :
    (line ++ [c]).dropWhile isWhitespace =
      if line.dropWhile isWhitespace = [] then [] else line.dropWhile isWhitespace ++ [c] := by
  rw [List.dropWhile_append]
  simp only [List.isEmpty_iff]
  split_ifs
  · rw [List.dropWhile_cons_of_pos hc, List.dropWhile_nil]
  · rfl

/-- White space at the end of a line (`hc`) is trimmed, so that a line is read alike with it and
without it. -/
theorem trim_append_whitespace {line : List Char} {c : Char} (hc : isWhitespace c = true) :
    trim (line ++ [c]) = trim line := by
  rw [trim, trim, dropWhile_append_whitespace hc]
  split_ifs with h
  · rw [h]
  · rw [List.reverse_append, List.reverse_singleton, List.singleton_append,
      List.dropWhile_cons_of_pos hc]

theorem trim_dropLast {line : List Char} {c : Char} (h : line.getLast? = some c)
    (hc : isWhitespace c = true) : trim line.dropLast = trim line := by
  conv_rhs => rw [← List.dropLast_append_getLast? c h]
  exact (trim_append_whitespace hc).symm

/-- The end of a line is white space. -/
theorem trim_stripEnd (line : List Char) : trim (stripEnd line) = trim line := by
  rw [stripEnd]
  split_ifs with hn hr
  · rw [trim_dropLast hr rfl, trim_dropLast hn rfl]
  · exact trim_dropLast hn rfl
  · rfl

/-- The two readers agree on a trimmed line. -/
theorem trim_decodeStripped (raw : List UInt8) :
    (decodeStripped raw).map trim = (decode raw).map trim := by
  rw [decodeStripped, Option.map_map]
  exact Option.map_congr fun line _ => trim_stripEnd line

end Trim

section Loops

variable {m : Type → Type} [Monad m] [LawfulMonad m] {σ ε : Type} {f : σ → List UInt8 → m σ}
  {feed : σ → UInt64 → m σ} {fail : ε → m σ}

/-- The rounds of a loop skip the blank lines, hand the numbers on, and fail at the other lines. -/
structure Reads (f : σ → List UInt8 → m σ) (feed : σ → UInt64 → m σ) (fail : ε → m σ) : Prop where
  /-- A blank line is skipped. -/
  blank : ∀ st raw, classify raw = .blank → f st raw = pure st
  /-- A number is handed on. -/
  number : ∀ st raw v, classify raw = .number v → f st raw = feed st v
  /-- Every other line is an error. -/
  malformed : ∀ raw, classify raw = .malformed → ∃ e : σ → ε, ∀ st, f st raw = fail (e st)

omit [LawfulMonad m] in
/-- A loop whose rounds trim the line that a reader gives and parse what is left. -/
theorem Reads.of_line {line : List UInt8 → Option (List Char)}
    (hline : ∀ raw, (line raw).map trim = (decode raw).map trim)
    (hnone : ∀ raw, line raw = none → ∃ e : σ → ε, ∀ st, f st raw = fail (e st))
    (hblank : ∀ st raw cs, line raw = some cs → trim cs = [] → f st raw = pure st)
    (hnumber : ∀ st raw cs v, line raw = some cs → trim cs ≠ [] → parseU64 (trim cs) = .ok v →
      f st raw = feed st v)
    (herror : ∀ raw cs p, line raw = some cs → trim cs ≠ [] → parseU64 (trim cs) = .error p →
      ∃ e : σ → ε, ∀ st, f st raw = fail (e st)) : Reads f feed fail where
  blank st raw h := by
    rw [classify_eq (hline raw)] at h
    cases hread : line raw with
    | none =>
      rw [hread] at h
      cases h
    | some cs =>
      rw [hread] at h
      exact hblank st raw cs hread (lineOf_eq_blank_iff.mp h)
  number st raw v h := by
    rw [classify_eq (hline raw)] at h
    cases hread : line raw with
    | none =>
      rw [hread] at h
      cases h
    | some cs =>
      rw [hread] at h
      obtain ⟨hne, hparse⟩ := lineOf_eq_number_iff.mp h
      exact hnumber st raw cs v hread hne hparse
  malformed raw h := by
    rw [classify_eq (hline raw)] at h
    cases hread : line raw with
    | none => exact hnone raw hread
    | some cs =>
      rw [hread] at h
      obtain ⟨hne, p, hparse⟩ := lineOf_eq_malformed_iff.mp h
      exact herror raw cs p hread hne hparse

/-- The lines in front of the first malformed one. -/
def wellFormed (raws : List (List UInt8)) : List (List UInt8) :=
  raws.takeWhile fun raw => classify raw ≠ .malformed

/-- Without malformed lines, the loop over the lines is one over the numbers. -/
theorem Reads.foldlM_eq (h : Reads f feed fail) {raws : List (List UInt8)}
    (hraws : ∀ raw ∈ raws, classify raw ≠ .malformed) (st : σ) :
    raws.foldlM f st = (numbersOf raws).foldlM feed st := by
  induction raws generalizing st with
  | nil => rfl
  | cons raw raws ih =>
    have hrest := fun st => ih (fun r hr => hraws r (by simp [hr])) st
    rw [List.foldlM_cons, numbersOf]
    cases hraw : classify raw with
    | blank =>
      rw [h.blank st raw hraw, pure_bind, hrest, List.filterMap_cons_none (by rw [hraw])]
      rfl
    | number v =>
      rw [h.number st raw v hraw, List.filterMap_cons_some (b := v) (by rw [hraw]),
        List.foldlM_cons]
      exact bind_congr fun st' => hrest st'
    | malformed => exact absurd hraw (hraws raw (by simp))

/-- With a malformed line, the loop hands on the numbers in front of the first one and fails
there. -/
theorem Reads.foldlM_eq_fail (h : Reads f feed fail)
    (hfail : ∀ e (k : σ → m σ), fail e >>= k = fail e)
    {raws : List (List UInt8)} (hraws : ∃ raw ∈ raws, classify raw = .malformed) :
    ∃ e : σ → ε, ∀ st, raws.foldlM f st =
      (numbersOf (wellFormed raws)).foldlM feed st >>= fun st => fail (e st) := by
  induction raws with
  | nil =>
    obtain ⟨raw, hmem, -⟩ := hraws
    cases hmem
  | cons raw raws ih =>
    -- the first malformed line fails, whatever the lines before it have left behind
    by_cases hbad : classify raw = .malformed
    · obtain ⟨e, he⟩ := h.malformed raw hbad
      refine ⟨e, fun st => ?_⟩
      rw [List.foldlM_cons, he, hfail, wellFormed, List.takeWhile_cons_of_neg (by simp [hbad])]
      exact (pure_bind (m := m) st fun st => fail (e st)).symm
    · obtain ⟨bad, hmem, hmal⟩ := hraws
      have hrest : bad ∈ raws := (List.mem_cons.mp hmem).resolve_left fun heq => hbad (heq ▸ hmal)
      obtain ⟨e, he⟩ := ih ⟨bad, hrest, hmal⟩
      have hcons : wellFormed (raw :: raws) = raw :: wellFormed raws := by
        rw [wellFormed, List.takeWhile_cons_of_pos (by simp [hbad]), wellFormed]
      refine ⟨e, fun st => ?_⟩
      rw [List.foldlM_cons, hcons, numbersOf]
      cases hraw : classify raw with
      | blank =>
        rw [h.blank st raw hraw, pure_bind, he, List.filterMap_cons_none (by rw [hraw]), numbersOf]
      | number v =>
        rw [h.number st raw v hraw, List.filterMap_cons_some (b := v) (by rw [hraw]),
          List.foldlM_cons, bind_assoc]
        exact bind_congr fun st' => he st'
      | malformed => exact absurd hraw hbad

end Loops

end Text

end EngramDB
