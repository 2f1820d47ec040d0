import Mathlib.Algebra.Group.Nat.Defs
import Mathlib.Data.List.Basic

/-!
# Lines of decimal numbers

A text is a list of characters. `lines` cuts it at the line ends, `trim` removes white space at both
ends of a line, and `parseU64` reads a decimal number of 64 bits.

* `lines_unlines`: the lines that were written are read;
* `splitWhitespace_pair`: two words that were written with a space between them are read;
* `parseU64_toDigits`: a number that was written is read.
-/

namespace EngramDB

namespace Text

/-- The lines of a text, where `line` was read of the current line. The last line needs no end. -/
def linesFrom (line : List Char) : List Char → List (List Char)
  | [] => if line = [] then [] else [line]
  | c :: cs => if c = '\n' then line :: linesFrom [] cs else linesFrom (line ++ [c]) cs

/-- The lines of a text, without their ends. -/
def lines (text : List Char) : List (List Char) := linesFrom [] text

/-- The text of lines with their ends. -/
def unlines (ls : List (List Char)) : List Char := ls.flatMap fun line => line ++ ['\n']

/-- The characters with the Unicode property `White_Space`. -/
def isWhitespace (c : Char) : Bool :=
  let n := c.toNat
  (0x09 ≤ n ∧ n ≤ 0x0D) ∨ n = 0x20 ∨ n = 0x85 ∨ n = 0xA0 ∨ n = 0x1680 ∨ (0x2000 ≤ n ∧ n ≤ 0x200A) ∨
    n = 0x2028 ∨ n = 0x2029 ∨ n = 0x202F ∨ n = 0x205F ∨ n = 0x3000

/-- A line without white space at its ends. -/
def trim (line : List Char) : List Char :=
  ((line.dropWhile isWhitespace).reverse.dropWhile isWhitespace).reverse

/-- The words of a line, where `word` was read of the current word. -/
def splitWhitespaceFrom (word : List Char) : List Char → List (List Char)
  | [] => if word = [] then [] else [word]
  | c :: cs =>
    if isWhitespace c then
      if word = [] then splitWhitespaceFrom [] cs else word :: splitWhitespaceFrom [] cs
    else splitWhitespaceFrom (word ++ [c]) cs

/-- The words of a line, which are separated by white space. -/
def splitWhitespace (line : List Char) : List (List Char) := splitWhitespaceFrom [] line

/-- Why a number could not be read. -/
inductive ParseIntError where
  /-- There are no characters. -/
  | empty
  /-- A character is not a digit. -/
  | invalidDigit
  /-- The number is too large. -/
  | posOverflow
deriving DecidableEq, Repr

/-- The texts of the errors. -/
def ParseIntError.message : ParseIntError → String
  | empty => "cannot parse integer from empty string"
  | invalidDigit => "invalid digit found in string"
  | posOverflow => "number too large to fit in target type"

/-- Read digits after a number `result`. -/
def parseDigits (result : ℕ) : List Char → Except ParseIntError ℕ
  | [] => .ok result
  | c :: cs =>
    if c.isDigit then
      let result := 10 * result + (c.toNat - '0'.toNat)
      if result < 2 ^ 64 then parseDigits result cs else .error .posOverflow
    else .error .invalidDigit

/-- Read a number of 64 bits, with an optional plus sign. -/
def parseU64 : List Char → Except ParseIntError UInt64
  | [] => .error .empty
  | c :: cs =>
    if c = '+' then
      if cs = [] then .error .invalidDigit else (parseDigits 0 cs).map UInt64.ofNat
    else (parseDigits 0 (c :: cs)).map UInt64.ofNat

section Lines

/-- A line without a newline ends at the next one, and the other lines start behind it. -/
theorem linesFrom_append {line done : List Char} (h : '\n' ∉ done) (rest : List Char) :
    linesFrom line (done ++ '\n' :: rest) = (line ++ done) :: linesFrom [] rest := by
  induction done generalizing line with
  | nil => simp [linesFrom]
  | cons c done ih =>
    rw [List.mem_cons, not_or] at h
    rw [List.cons_append, linesFrom, if_neg (Ne.symm h.1), ih h.2, List.append_assoc,
      List.singleton_append]

/-- Lines without a newline in them (`h`) are read back as they were written. -/
theorem lines_unlines {ls : List (List Char)} (h : ∀ line ∈ ls, '\n' ∉ line) :
    lines (unlines ls) = ls := by
  induction ls with
  | nil => rfl
  | cons line ls ih =>
    rw [lines, unlines, List.flatMap_cons, List.append_assoc, List.singleton_append,
      linesFrom_append (h line (by simp)), List.nil_append]
    exact congrArg _ (ih fun l hl => h l (by simp [hl]))

end Lines

section Words

/-- The characters are those of a word. -/
def IsWord (cs : List Char) : Prop := cs ≠ [] ∧ ∀ c ∈ cs, isWhitespace c = false

/-- Characters that are no white space go on the word that was begun. -/
theorem splitWhitespaceFrom_append {word cs : List Char} (hcs : ∀ c ∈ cs, isWhitespace c = false)
    (rest : List Char) :
    splitWhitespaceFrom word (cs ++ rest) = splitWhitespaceFrom (word ++ cs) rest := by
  induction cs generalizing word with
  | nil => rw [List.nil_append, List.append_nil]
  | cons c cs ih =>
    rw [List.cons_append, splitWhitespaceFrom, hcs c (by simp), if_neg Bool.false_ne_true,
      ih fun c' hc' => hcs c' (by simp [hc']), List.append_assoc, List.singleton_append]

/-- Two words (`ha`, `hb`) with a space between them are split into the two. -/
theorem splitWhitespace_pair {a b : List Char} (ha : IsWord a) (hb : IsWord b) :
    splitWhitespace (a ++ ' ' :: b) = [a, b] := by
  have hspace : isWhitespace ' ' = true := by decide
  have hlast : splitWhitespaceFrom [] (b ++ []) = splitWhitespaceFrom b [] :=
    splitWhitespaceFrom_append hb.2 []
  rw [List.append_nil] at hlast
  rw [splitWhitespace, splitWhitespaceFrom_append ha.2, List.nil_append,
    splitWhitespaceFrom, if_pos hspace, if_neg ha.1, hlast, splitWhitespaceFrom, if_neg hb.1]

end Words

section Numbers

/-- The digits of a number are digits. -/
theorem isDigit_of_mem_toDigits {n : ℕ} {c : Char} (h : c ∈ Nat.toDigits 10 n) : c.isDigit :=
  Nat.isDigit_of_mem_toDigits (by decide) (by decide) h

/-- Numbers with the same digits are the same. -/
theorem toDigits_injective : Function.Injective (Nat.toDigits 10) := by
  intro m n h
  rw [← Nat.ofDigitChars_toDigits (b := 10) (n := m) (by decide) (by decide), h,
    Nat.ofDigitChars_toDigits (by decide) (by decide)]

/-- The digits of a number contain no newline. -/
theorem newline_notMem_toDigits (n : ℕ) : '\n' ∉ Nat.toDigits 10 n := by
  intro h
  exact absurd (isDigit_of_mem_toDigits h) (by decide)

/-- A digit (`h`) is not white space. -/
theorem isWhitespace_of_isDigit {c : Char} (h : c.isDigit) : isWhitespace c = false := by
  simp only [Char.isDigit, Bool.and_eq_true, decide_eq_true_eq, ge_iff_le] at h
  have h1 : 48 ≤ c.toNat := h.1
  have h2 : c.toNat ≤ 57 := h.2
  simp only [isWhitespace, decide_eq_false_iff_not]
  omega

/-- The digits of a number are a word, for they are not empty and contain no white space. -/
theorem isWord_toDigits (n : ℕ) : IsWord (Nat.toDigits 10 n) :=
  ⟨Nat.toDigits_ne_nil, fun _ hc => isWhitespace_of_isDigit (isDigit_of_mem_toDigits hc)⟩

/-- A written number has no white space to trim. -/
theorem trim_toDigits (n : ℕ) : trim (Nat.toDigits 10 n) = Nat.toDigits 10 n := by
  have hdrop : ∀ cs : List Char, (∀ c ∈ cs, c.isDigit) → cs.dropWhile isWhitespace = cs := by
    intro cs hcs
    cases cs with
    | nil => rfl
    | cons c cs =>
      rw [List.dropWhile_cons_of_neg]
      rw [isWhitespace_of_isDigit (hcs c (by simp))]
      decide
  rw [trim, hdrop _ fun c => isDigit_of_mem_toDigits,
    hdrop _ fun c hc => isDigit_of_mem_toDigits (List.mem_reverse.mp hc), List.reverse_reverse]

/-- Reading on only makes a number greater. -/
theorem le_ofDigitChars (cs : List Char) (init : ℕ) : init ≤ Nat.ofDigitChars 10 cs init := by
  rw [Nat.ofDigitChars_eq_ofDigitChars_zero]
  have : 0 < 10 ^ cs.length := Nat.pow_pos (by decide)
  calc init ≤ 10 ^ cs.length * init := Nat.le_mul_of_pos_left _ this
    _ ≤ _ := Nat.le_add_right _ _

/-- Digits (`hcs`) of a number that fits into 64 bits (`hfits`), together with what was read before
them, are read as this number. -/
theorem parseDigits_eq_ok {cs : List Char} (hcs : ∀ c ∈ cs, c.isDigit) {init : ℕ}
    (hfits : Nat.ofDigitChars 10 cs init < 2 ^ 64) :
    parseDigits init cs = .ok (Nat.ofDigitChars 10 cs init) := by
  induction cs generalizing init with
  | nil => rfl
  | cons c cs ih =>
    rw [Nat.ofDigitChars_cons] at hfits ⊢
    have hle := le_ofDigitChars cs (10 * init + (c.toNat - '0'.toNat))
    rw [parseDigits, if_pos (hcs c (by simp))]
    simp only [if_pos (Nat.lt_of_le_of_lt hle hfits)]
    exact ih (fun c hc => hcs c (by simp [hc])) hfits

/-- A number that was written is read. -/
theorem parseU64_toDigits (n : UInt64) : parseU64 (Nat.toDigits 10 n.toNat) = .ok n := by
  have hdigits : ∀ c ∈ Nat.toDigits 10 n.toNat, c.isDigit := fun c => isDigit_of_mem_toDigits
  have hvalue : Nat.ofDigitChars 10 (Nat.toDigits 10 n.toNat) 0 = n.toNat :=
    Nat.ofDigitChars_toDigits (by decide) (by decide)
  have hparse : parseDigits 0 (Nat.toDigits 10 n.toNat) = .ok n.toNat := by
    rw [parseDigits_eq_ok hdigits (by rw [hvalue]; exact n.toNat_lt), hvalue]
  have hne := @Nat.toDigits_ne_nil n.toNat 10
  generalize Nat.toDigits 10 n.toNat = cs at *
  match cs with
  | [] => exact absurd rfl hne
  | c :: cs =>
    have hplus : c ≠ '+' := by
      rintro rfl
      exact absurd (hdigits '+' (by simp)) (by decide)
    rw [parseU64, if_neg hplus, hparse]
    exact congrArg Except.ok UInt64.ofNat_toNat

end Numbers

end Text

end EngramDB
