import EngramDB.Foundations.Chunks
import Mathlib.Data.List.GetD
import Mathlib.Data.List.Nodup

/-!
# Base64

The alphabet of RFC 4648, its encoder and its decoder. The encoder cuts the bits of the bytes into
sextets. For the decoder, four characters are three bytes, and the last four may end in one or two
padding characters. A lenient decoder skips foreign characters and stops at the padding.

* `encode_cons`, `encode_singleton`, `encode_pair`: the encoder, three bytes at a time;
* `decode_encode`: the text of some bytes decodes to them;
* `lenientDecode_of_decode`: a text that the decoder accepts is decoded alike by the lenient one.
-/

namespace Base64

/-- The characters of the sextets. -/
def alphabet : List Char :=
  "ABCDEFGHIJKLMNOPQRSTUVWXYZabcdefghijklmnopqrstuvwxyz0123456789+/".toList

/-- The sextet of a character. -/
def sextet? (c : Char) : Option ℕ :=
  let i := alphabet.idxOf c
  if i < 64 then some i else none

/-- The character of a sextet. -/
def char (i : ℕ) : Char := alphabet.getD i '='

/-- The alphabet, character by character. -/
theorem alphabet_eq : alphabet =
    ['A', 'B', 'C', 'D', 'E', 'F', 'G', 'H', 'I', 'J', 'K', 'L', 'M', 'N', 'O', 'P',
      'Q', 'R', 'S', 'T', 'U', 'V', 'W', 'X', 'Y', 'Z', 'a', 'b', 'c', 'd', 'e', 'f',
      'g', 'h', 'i', 'j', 'k', 'l', 'm', 'n', 'o', 'p', 'q', 'r', 's', 't', 'u', 'v',
      'w', 'x', 'y', 'z', '0', '1', '2', '3', '4', '5', '6', '7', '8', '9', '+', '/'] := by
  decide

attribute [irreducible] alphabet

/-- There are 64 characters, one for each sextet. -/
theorem length_alphabet : alphabet.length = 64 := by
  rw [alphabet_eq]
  rfl

/-- The codes of the characters: the capitals, the small letters, the digits and the two signs. -/
theorem map_toNat_alphabet : alphabet.map Char.toNat =
    List.range' 65 26 ++ List.range' 97 26 ++ List.range' 48 10 ++ [43, 47] := by
  rw [alphabet_eq]
  decide

/-- No character stands for two sextets. -/
theorem nodup_alphabet : alphabet.Nodup := by
  have hcodes : (alphabet.map Char.toNat).Nodup := by
    rw [map_toNat_alphabet]
    decide
  exact List.Nodup.of_map Char.toNat hcodes

/-- The padding character stands for no sextet. -/
theorem pad_notMem_alphabet : '=' ∉ alphabet := by
  rw [alphabet_eq]
  decide

/-- The character of a number is the one at that place of the alphabet. -/
theorem char_eq_get {i : ℕ} (h : i < alphabet.length) : char i = alphabet.get ⟨i, h⟩ :=
  List.getD_eq_getElem alphabet '=' h

/-- The character of a sextet is in the alphabet. -/
theorem char_mem_alphabet {i : ℕ} (h : i < 64) : char i ∈ alphabet := by
  rw [← length_alphabet] at h
  rw [char_eq_get h]
  exact List.get_mem alphabet ⟨i, h⟩

/-- The sextet of a character that stands for `i` is `i`. -/
theorem sextet?_char {i : ℕ} (h : i < 64) : sextet? (char i) = some i := by
  have hidx : alphabet.idxOf (char i) = i := by
    rw [← length_alphabet] at h
    rw [char_eq_get h]
    exact nodup_alphabet.idxOf_getElem i h
  simp [sextet?, hidx, h]

/-- No sextet is written as padding. -/
theorem char_ne_pad {i : ℕ} (h : i < 64) : char i ≠ '=' := by
  intro hpad
  exact pad_notMem_alphabet (hpad ▸ char_mem_alphabet h)

/-- The bytes of a text. -/
def decode : List Char → Option (List UInt8)
  | [] => some []
  | [c₀, c₁, '=', '='] => do
    let s₀ ← sextet? c₀
    let s₁ ← sextet? c₁
    pure [UInt8.ofNat (s₀ * 4 + s₁ / 16)]
  | [c₀, c₁, c₂, '='] => do
    let s₀ ← sextet? c₀
    let s₁ ← sextet? c₁
    let s₂ ← sextet? c₂
    pure [UInt8.ofNat (s₀ * 4 + s₁ / 16), UInt8.ofNat (s₁ % 16 * 16 + s₂ / 4)]
  | c₀ :: c₁ :: c₂ :: c₃ :: cs => do
    let s₀ ← sextet? c₀
    let s₁ ← sextet? c₁
    let s₂ ← sextet? c₂
    let s₃ ← sextet? c₃
    let bytes ← decode cs
    pure (UInt8.ofNat (s₀ * 4 + s₁ / 16) :: UInt8.ofNat (s₁ % 16 * 16 + s₂ / 4) ::
      UInt8.ofNat (s₂ % 4 * 64 + s₃) :: bytes)
  | _ => none

section Decode

variable {s₀ s₁ s₂ s₃ : ℕ}

/-- A group of two characters and two paddings decodes to one byte. -/
theorem decode_pad_pad (h₀ : s₀ < 64) (h₁ : s₁ < 64) :
    decode [char s₀, char s₁, '=', '='] = some [UInt8.ofNat (s₀ * 4 + s₁ / 16)] := by
  simp [decode, sextet?_char h₀, sextet?_char h₁]

/-- A group of three characters and one padding decodes to two bytes. -/
theorem decode_pad (h₀ : s₀ < 64) (h₁ : s₁ < 64) (h₂ : s₂ < 64) :
    decode [char s₀, char s₁, char s₂, '='] =
      some [UInt8.ofNat (s₀ * 4 + s₁ / 16), UInt8.ofNat (s₁ % 16 * 16 + s₂ / 4)] := by
  have hpad := char_ne_pad h₂
  simp [decode, sextet?_char h₀, sextet?_char h₁, sextet?_char h₂]

/-- A group of four characters decodes to three bytes in front of those of the other groups. -/
theorem decode_cons (h₀ : s₀ < 64) (h₁ : s₁ < 64) (h₂ : s₂ < 64) (h₃ : s₃ < 64)
    {cs : List Char} {bytes : List UInt8} (hcs : decode cs = some bytes) :
    decode (char s₀ :: char s₁ :: char s₂ :: char s₃ :: cs) =
      some (UInt8.ofNat (s₀ * 4 + s₁ / 16) :: UInt8.ofNat (s₁ % 16 * 16 + s₂ / 4) ::
        UInt8.ofNat (s₂ % 4 * 64 + s₃) :: bytes) := by
  have hpad := char_ne_pad h₃
  simp [decode, sextet?_char h₀, sextet?_char h₁, sextet?_char h₂, sextet?_char h₃, hcs, hpad]

end Decode

/-! ### The encoder -/

/-- The bits of a byte, the highest first. -/
def bits (b : UInt8) : List Bool := [7, 6, 5, 4, 3, 2, 1, 0].map b.toNat.testBit

/-- The sextet of at most six bits, which are filled with zeros. -/
def sextetOf (bs : List Bool) : ℕ :=
  (bs ++ List.replicate (6 - bs.length) false).foldl (fun n b => 2 * n + b.toNat) 0

/-- The characters of the bits, six at a time. -/
def chars (bs : List Bool) : List Char := (Chunking.chunks 6 bs).map fun six => char (sextetOf six)

/-- The text of some bytes: a character for every six bits, and padding to a multiple of four
characters. -/
def encode (data : List UInt8) : List Char :=
  let cs := chars (data.flatMap bits)
  cs ++ List.replicate ((4 - cs.length % 4) % 4) '='

/-- Six bits in front of a string of bits give one character in front. -/
theorem chars_six (x₅ x₄ x₃ x₂ x₁ x₀ : Bool) (bs : List Bool) :
    chars (x₅ :: x₄ :: x₃ :: x₂ :: x₁ :: x₀ :: bs) =
      char (sextetOf [x₅, x₄, x₃, x₂, x₁, x₀]) :: chars bs := by
  have hpos : 0 < [x₅, x₄, x₃, x₂, x₁, x₀].length := by simp
  have hcut := Chunking.chunks_append hpos bs
  exact congrArg (List.map fun six => char (sextetOf six)) hcut

/-- At most six bits, and at least one, give one character. -/
theorem chars_of_length_le {bs : List Bool} (hne : bs ≠ []) (h : bs.length ≤ 6) :
    chars bs = [char (sextetOf bs)] := by
  rw [chars, Chunking.chunks_of_length_le hne h, List.map_singleton]

/-- A number of six bits. -/
theorem sextetOf_six (x₅ x₄ x₃ x₂ x₁ x₀ : Bool) : sextetOf [x₅, x₄, x₃, x₂, x₁, x₀] =
    32 * x₅.toNat + 16 * x₄.toNat + 8 * x₃.toNat + 4 * x₂.toNat + 2 * x₁.toNat + x₀.toNat := by
  have hfold : sextetOf [x₅, x₄, x₃, x₂, x₁, x₀] = 2 * (2 * (2 * (2 * (2 * (2 * 0 + x₅.toNat) +
      x₄.toNat) + x₃.toNat) + x₂.toNat) + x₁.toNat) + x₀.toNat := rfl
  rw [hfold]
  omega

section Encode

variable (b₀ b₁ b₂ : UInt8)

/-- The first sextet of three bytes. -/
theorem sextetOf_first : sextetOf [b₀.toNat.testBit 7, b₀.toNat.testBit 6, b₀.toNat.testBit 5,
    b₀.toNat.testBit 4, b₀.toNat.testBit 3, b₀.toNat.testBit 2] = b₀.toNat / 4 := by
  have h₀ := b₀.toNat_lt
  simp only [sextetOf_six, Nat.toNat_testBit]
  omega

/-- The second sextet of a group has the last two bits of the first byte and the first four of the
second. -/
theorem sextetOf_second : sextetOf [b₀.toNat.testBit 1, b₀.toNat.testBit 0, b₁.toNat.testBit 7,
    b₁.toNat.testBit 6, b₁.toNat.testBit 5, b₁.toNat.testBit 4] =
      b₀.toNat % 4 * 16 + b₁.toNat / 16 := by
  have h₁ := b₁.toNat_lt
  simp only [sextetOf_six, Nat.toNat_testBit]
  omega

/-- The third sextet of a group has the last four bits of the second byte and the first two of the
third. -/
theorem sextetOf_third : sextetOf [b₁.toNat.testBit 3, b₁.toNat.testBit 2, b₁.toNat.testBit 1,
    b₁.toNat.testBit 0, b₂.toNat.testBit 7, b₂.toNat.testBit 6] =
      b₁.toNat % 16 * 4 + b₂.toNat / 64 := by
  have h₂ := b₂.toNat_lt
  simp only [sextetOf_six, Nat.toNat_testBit]
  omega

/-- The fourth sextet of a group has the last six bits of the third byte. -/
theorem sextetOf_fourth : sextetOf [b₂.toNat.testBit 5, b₂.toNat.testBit 4, b₂.toNat.testBit 3,
    b₂.toNat.testBit 2, b₂.toNat.testBit 1, b₂.toNat.testBit 0] = b₂.toNat % 64 := by
  simp only [sextetOf_six, Nat.toNat_testBit]
  omega

@[simp]
theorem encode_nil : encode [] = [] := rfl

/-- One byte is two characters. The last four bits of the second are zero. -/
theorem encode_singleton :
    encode [b₀] = [char (b₀.toNat / 4), char (b₀.toNat % 4 * 16), '=', '='] := by
  have hlast : sextetOf [b₀.toNat.testBit 1, b₀.toNat.testBit 0] = b₀.toNat % 4 * 16 := by
    have h := sextetOf_second b₀ 0
    rwa [show (0 : UInt8).toNat / 16 = 0 from rfl, Nat.add_zero] at h
  have hchars : chars (bits b₀) = [char (b₀.toNat / 4), char (b₀.toNat % 4 * 16)] := by
    simp only [bits, List.map_cons, List.map_nil]
    rw [chars_six, sextetOf_first, chars_of_length_le (by simp) (by simp), hlast]
  rw [encode, List.flatMap_singleton, hchars]
  rfl

/-- Two bytes are three characters. The last two bits of the third are zero. -/
theorem encode_pair :
    encode [b₀, b₁] = [char (b₀.toNat / 4), char (b₀.toNat % 4 * 16 + b₁.toNat / 16),
    char (b₁.toNat % 16 * 4), '='] := by
  have hlast :
      sextetOf [b₁.toNat.testBit 3, b₁.toNat.testBit 2, b₁.toNat.testBit 1, b₁.toNat.testBit 0] =
        b₁.toNat % 16 * 4 := by
    have h := sextetOf_third b₁ 0
    rwa [show (0 : UInt8).toNat / 64 = 0 from rfl, Nat.add_zero] at h
  have hchars : chars (bits b₀ ++ bits b₁) = [char (b₀.toNat / 4),
      char (b₀.toNat % 4 * 16 + b₁.toNat / 16), char (b₁.toNat % 16 * 4)] := by
    simp only [bits, List.map_cons, List.map_nil, List.cons_append, List.nil_append]
    rw [chars_six, chars_six, sextetOf_first, sextetOf_second,
      chars_of_length_le (by simp) (by simp), hlast]
  rw [encode, List.flatMap_cons, List.flatMap_singleton, hchars]
  rfl

/-- Three bytes are four characters. -/
theorem encode_cons (data : List UInt8) : encode (b₀ :: b₁ :: b₂ :: data) =
    char (b₀.toNat / 4) :: char (b₀.toNat % 4 * 16 + b₁.toNat / 16) ::
      char (b₁.toNat % 16 * 4 + b₂.toNat / 64) :: char (b₂.toNat % 64) :: encode data := by
  have hchars : chars ((b₀ :: b₁ :: b₂ :: data).flatMap bits) = char (b₀.toNat / 4) ::
      char (b₀.toNat % 4 * 16 + b₁.toNat / 16) :: char (b₁.toNat % 16 * 4 + b₂.toNat / 64) ::
        char (b₂.toNat % 64) :: chars (data.flatMap bits) := by
    simp only [List.flatMap_cons, bits, List.map_cons, List.map_nil, List.cons_append,
      List.nil_append]
    rw [chars_six, chars_six, chars_six, chars_six, sextetOf_first, sextetOf_second, sextetOf_third,
      sextetOf_fourth]
  have hpad : ∀ n : ℕ, (4 - (n + 1 + 1 + 1 + 1) % 4) % 4 = (4 - n % 4) % 4 := by
    intro n
    omega
  rw [encode, encode, hchars]
  simp only [List.length_cons, hpad, List.cons_append]

/-- The text has four characters for every three bytes that were begun. -/
theorem length_encode : ∀ data : List UInt8, (encode data).length = 4 * ((data.length + 2) / 3)
  | [] => rfl
  | [b₀] => by simp [encode_singleton]
  | [b₀, b₁] => by simp [encode_pair]
  | b₀ :: b₁ :: b₂ :: data => by
    rw [encode_cons]
    simp only [List.length_cons, length_encode data]
    omega

end Encode

/-- The text is made of the alphabet, up to the padding. -/
theorem exists_encode_eq : ∀ data : List UInt8,
    ∃ cs pads, encode data = cs ++ List.replicate pads '=' ∧ (∀ c ∈ cs, c ∈ alphabet) ∧ pads ≤ 2
  | [] => ⟨[], 0, rfl, by simp, by decide⟩
  | [b₀] => by
    have h₀ := b₀.toNat_lt
    refine ⟨[char (b₀.toNat / 4), char (b₀.toNat % 4 * 16)], 2, encode_singleton b₀,
      ?_, Nat.le_refl 2⟩
    exact List.forall_mem_cons.mpr ⟨char_mem_alphabet (by omega),
      List.forall_mem_singleton.mpr (char_mem_alphabet (by omega))⟩
  | [b₀, b₁] => by
    have h₀ := b₀.toNat_lt
    have h₁ := b₁.toNat_lt
    refine ⟨[char (b₀.toNat / 4), char (b₀.toNat % 4 * 16 + b₁.toNat / 16),
      char (b₁.toNat % 16 * 4)], 1, encode_pair b₀ b₁, ?_, by decide⟩
    exact List.forall_mem_cons.mpr ⟨char_mem_alphabet (by omega),
      List.forall_mem_cons.mpr ⟨char_mem_alphabet (by omega),
        List.forall_mem_singleton.mpr (char_mem_alphabet (by omega))⟩⟩
  | b₀ :: b₁ :: b₂ :: data => by
    have h₀ := b₀.toNat_lt
    have h₁ := b₁.toNat_lt
    have h₂ := b₂.toNat_lt
    obtain ⟨cs, pads, hcs, hmem, hpads⟩ := exists_encode_eq data
    refine ⟨char (b₀.toNat / 4) :: char (b₀.toNat % 4 * 16 + b₁.toNat / 16) ::
      char (b₁.toNat % 16 * 4 + b₂.toNat / 64) :: char (b₂.toNat % 64) :: cs, pads, ?_, ?_, hpads⟩
    · rw [encode_cons, hcs]
      rfl
    · simp only [List.forall_mem_cons]
      exact ⟨char_mem_alphabet (by omega), char_mem_alphabet (by omega),
        char_mem_alphabet (by omega),
        char_mem_alphabet (by omega), hmem⟩

/-- The text decodes to the bytes. -/
theorem decode_encode : ∀ data : List UInt8, decode (encode data) = some data
  | [] => rfl
  | [b₀] => by
    have h₀ := b₀.toNat_lt
    have hbyte : b₀.toNat / 4 * 4 + b₀.toNat % 4 * 16 / 16 = b₀.toNat := by omega
    rw [encode_singleton, decode_pad_pad (by omega) (by omega), hbyte, UInt8.ofNat_toNat]
  | [b₀, b₁] => by
    have h₀ := b₀.toNat_lt
    have h₁ := b₁.toNat_lt
    have hfirst : b₀.toNat / 4 * 4 + (b₀.toNat % 4 * 16 + b₁.toNat / 16) / 16 = b₀.toNat := by omega
    have hsecond :
        (b₀.toNat % 4 * 16 + b₁.toNat / 16) % 16 * 16 + b₁.toNat % 16 * 4 / 4 = b₁.toNat := by
      omega
    rw [encode_pair, decode_pad (by omega) (by omega) (by omega), hfirst, hsecond,
      UInt8.ofNat_toNat, UInt8.ofNat_toNat]
  | b₀ :: b₁ :: b₂ :: data => by
    have h₀ := b₀.toNat_lt
    have h₁ := b₁.toNat_lt
    have h₂ := b₂.toNat_lt
    have hfirst : b₀.toNat / 4 * 4 + (b₀.toNat % 4 * 16 + b₁.toNat / 16) / 16 = b₀.toNat := by omega
    have hsecond : (b₀.toNat % 4 * 16 + b₁.toNat / 16) % 16 * 16 +
        (b₁.toNat % 16 * 4 + b₂.toNat / 64) / 4 = b₁.toNat := by omega
    have hthird :
        (b₁.toNat % 16 * 4 + b₂.toNat / 64) % 4 * 64 + b₂.toNat % 64 = b₂.toNat := by omega
    rw [encode_cons,
      decode_cons (by omega) (by omega) (by omega) (by omega) (decode_encode data), hfirst,
      hsecond, hthird, UInt8.ofNat_toNat, UInt8.ofNat_toNat, UInt8.ofNat_toNat]

/-! ### The lenient decoder -/

/-- The rest of a text, after `quad` characters of a group of four. They have left the bits `left`
to the next byte, and `pads` padding characters have followed. -/
def lenientDecodeFrom : ℕ → ℕ → ℕ → List Char → Option (List UInt8)
  | quad, _, _, [] => if quad = 0 then some [] else none
  | quad, left, pads, c :: cs =>
    if c = '=' then
      -- padding counts after two characters of a group, and is skipped before that
      if 2 ≤ quad then
        if 4 ≤ quad + (pads + 1) then some [] else lenientDecodeFrom quad left (pads + 1) cs
      else lenientDecodeFrom quad left pads cs
    else
      match sextet? c with
      -- as is a character outside the alphabet
      | none => lenientDecodeFrom quad left pads cs
      | some s =>
        match quad with
        | 0 => lenientDecodeFrom 1 s 0 cs
        | 1 => (lenientDecodeFrom 2 (s % 16) 0 cs).map (UInt8.ofNat (left * 4 + s / 16) :: ·)
        | 2 => (lenientDecodeFrom 3 (s % 4) 0 cs).map (UInt8.ofNat (left * 16 + s / 4) :: ·)
        | _ => (lenientDecodeFrom 0 0 0 cs).map (UInt8.ofNat (left * 64 + s) :: ·)

/-- The bytes of a text with foreign characters, which are skipped. -/
def lenientDecode (cs : List Char) : Option (List UInt8) := lenientDecodeFrom 0 0 0 cs

/-- A sextet is not written as padding. -/
theorem ne_pad_of_sextet? {c : Char} {s : ℕ} (h : sextet? c = some s) : c ≠ '=' := by
  rintro rfl
  have hpad : sextet? '=' = none := by
    rw [sextet?, List.idxOf_eq_length pad_notMem_alphabet, length_alphabet]
    rfl
  rw [hpad] at h
  cases h

section Lenient

variable {c c₀ c₁ c₂ c₃ : Char} {s s₀ s₁ s₂ s₃ left pads : ℕ} {cs : List Char}

/-- At the start of a group, the character of a sextet is kept. -/
theorem lenientDecodeFrom_zero (h : sextet? c = some s) :
    lenientDecodeFrom 0 left pads (c :: cs) = lenientDecodeFrom 1 s 0 cs := by
  rw [lenientDecodeFrom, if_neg (ne_pad_of_sextet? h), h]
  rfl

/-- The second character of a group completes the first byte. -/
theorem lenientDecodeFrom_one (h : sextet? c = some s) : lenientDecodeFrom 1 left pads (c :: cs) =
    (lenientDecodeFrom 2 (s % 16) 0 cs).map (UInt8.ofNat (left * 4 + s / 16) :: ·) := by
  rw [lenientDecodeFrom, if_neg (ne_pad_of_sextet? h), h]
  rfl

/-- The third character of a group completes the second byte. -/
theorem lenientDecodeFrom_two (h : sextet? c = some s) : lenientDecodeFrom 2 left pads (c :: cs) =
    (lenientDecodeFrom 3 (s % 4) 0 cs).map (UInt8.ofNat (left * 16 + s / 4) :: ·) := by
  rw [lenientDecodeFrom, if_neg (ne_pad_of_sextet? h), h]
  rfl

/-- The fourth character of a group completes the third byte and starts the next group. -/
theorem lenientDecodeFrom_three (h : sextet? c = some s) : lenientDecodeFrom 3 left pads (c :: cs) =
    (lenientDecodeFrom 0 0 0 cs).map (UInt8.ofNat (left * 64 + s) :: ·) := by
  rw [lenientDecodeFrom, if_neg (ne_pad_of_sextet? h), h]
  rfl

/-- A text that the decoder accepts is decoded alike by the lenient one. -/
theorem lenientDecode_of_decode {bytes : List UInt8} (h : decode cs = some bytes) :
    lenientDecode cs = some bytes := by
  rw [lenientDecode]
  -- a quantum at a time; only the last one is padded
  induction cs using decode.induct generalizing bytes with
  | case1 => exact h
  | case2 c₀ c₁ =>
    obtain ⟨s₀, h₀, h⟩ := Option.bind_eq_some_iff.mp h
    obtain ⟨s₁, h₁, h⟩ := Option.bind_eq_some_iff.mp h
    cases h
    rw [lenientDecodeFrom_zero h₀, lenientDecodeFrom_one h₁]
    rfl
  | case3 c₀ c₁ c₂ hc₂ =>
    rw [decode] at h
    · obtain ⟨s₀, h₀, h⟩ := Option.bind_eq_some_iff.mp h
      obtain ⟨s₁, h₁, h⟩ := Option.bind_eq_some_iff.mp h
      obtain ⟨s₂, h₂, h⟩ := Option.bind_eq_some_iff.mp h
      cases h
      rw [lenientDecodeFrom_zero h₀, lenientDecodeFrom_one h₁, lenientDecodeFrom_two h₂]
      rfl
    · exact hc₂
  | case4 c₀ c₁ c₂ c₃ cs hpads hpad ih =>
    rw [decode] at h
    · obtain ⟨s₀, h₀, h⟩ := Option.bind_eq_some_iff.mp h
      obtain ⟨s₁, h₁, h⟩ := Option.bind_eq_some_iff.mp h
      obtain ⟨s₂, h₂, h⟩ := Option.bind_eq_some_iff.mp h
      obtain ⟨s₃, h₃, h⟩ := Option.bind_eq_some_iff.mp h
      obtain ⟨rest, hrest, h⟩ := Option.bind_eq_some_iff.mp h
      cases h
      rw [lenientDecodeFrom_zero h₀, lenientDecodeFrom_one h₁, lenientDecodeFrom_two h₂,
        lenientDecodeFrom_three h₃, ih hrest]
      rfl
    · exact hpads
    · exact hpad
  | case5 cs h₁ h₂ h₃ h₄ =>
    rw [decode] at h
    · cases h
    all_goals assumption

end Lenient

end Base64
