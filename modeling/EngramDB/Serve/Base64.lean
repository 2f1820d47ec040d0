import EngramDB.Core.Layout
import EngramDB.Foundations.Base64
import EngramDB.Foundations.Chunks
import Mathlib.Tactic.Ring

/-!
# The Base64 encoder of the server

Rows are sent as text in a JSON response.

* `base64Encode_eq`: the encoder works with bit fields of groups of three bytes, and is that of RFC
  4648;
* `base64Encode_roundtrip`: the text decodes to the rows.
-/

namespace EngramDB

namespace Serve

open Chunking

/-- The characters of at most three bytes. -/
def encodeChunk (chunk : Bytes) : List Char :=
  let b₀ := (chunk.getD 0 0).toNat
  let b₁ := (chunk.getD 1 0).toNat
  let b₂ := (chunk.getD 2 0).toNat
  let n := (b₀ <<< 16) ||| (b₁ <<< 8) ||| b₂
  [Base64.char ((n >>> 18) &&& 63), Base64.char ((n >>> 12) &&& 63),
    if 1 < chunk.length then Base64.char ((n >>> 6) &&& 63) else '=',
    if 2 < chunk.length then Base64.char (n &&& 63) else '=']

/-- The characters of a list of bytes, three bytes at a time. -/
def base64Encode (data : Bytes) : List Char := (chunks 3 data).flatMap encodeChunk

/-- The sextets of a group of three bytes, as bit fields of one number. -/
private theorem sextets_eq {b₀ b₁ b₂ : ℕ} (h₁ : b₁ < 256) (h₂ : b₂ < 256) :
    (b₀ <<< 16) ||| (b₁ <<< 8) ||| b₂ = b₀ * 65536 + b₁ * 256 + b₂ := by
  have hlow : b₁ <<< 8 < 2 ^ 16 := by
    rw [Nat.shiftLeft_eq]
    omega
  rw [← Nat.shiftLeft_add_eq_or_of_lt hlow, Nat.shiftLeft_eq, Nat.shiftLeft_eq]
  have hsum : b₀ * 2 ^ 16 + b₁ * 2 ^ 8 = (b₀ * 256 + b₁) <<< 8 := by
    rw [Nat.shiftLeft_eq]
    omega
  rw [hsum, ← Nat.shiftLeft_add_eq_or_of_lt h₂, Nat.shiftLeft_eq, Nat.add_mul, Nat.mul_assoc]

private theorem and_63 (n : ℕ) : n &&& 63 = n % 64 := Nat.and_two_pow_sub_one_eq_mod n 6

/-- The bit fields of three bytes as the digits of one number in base 64. -/
private theorem sextets_of_bytes {b₀ b₁ b₂ : ℕ} (h₀ : b₀ < 256) (h₁ : b₁ < 256) (h₂ : b₂ < 256) :
    let n := b₀ * 65536 + b₁ * 256 + b₂
    n / 2 ^ 18 % 64 = b₀ / 4 ∧ n / 2 ^ 12 % 64 = b₀ % 4 * 16 + b₁ / 16 ∧
      n / 2 ^ 6 % 64 = b₁ % 16 * 4 + b₂ / 64 ∧ n % 64 = b₂ % 64 := by
  intro n
  omega

/-- The characters of a group, by its sextets. -/
theorem encodeChunk_eq (chunk : Bytes) :
    let b₀ := (chunk.getD 0 0).toNat
    let b₁ := (chunk.getD 1 0).toNat
    let b₂ := (chunk.getD 2 0).toNat
    encodeChunk chunk = [Base64.char (b₀ / 4), Base64.char (b₀ % 4 * 16 + b₁ / 16),
      if 1 < chunk.length then Base64.char (b₁ % 16 * 4 + b₂ / 64) else '=',
      if 2 < chunk.length then Base64.char (b₂ % 64) else '='] := by
  obtain ⟨h₀, h₁, h₂, h₃⟩ := sextets_of_bytes (UInt8.toNat_lt (chunk.getD 0 0))
    (UInt8.toNat_lt (chunk.getD 1 0)) (UInt8.toNat_lt (chunk.getD 2 0))
  simp only [encodeChunk, sextets_eq (UInt8.toNat_lt _) (UInt8.toNat_lt _), and_63,
    Nat.shiftRight_eq_div_pow, h₀, h₁, h₂, h₃]

/-- The server encodes as RFC 4648 does. -/
theorem base64Encode_eq : ∀ data : Bytes, base64Encode data = Base64.encode data
  | [] => rfl
  | [b₀] => by
    rw [base64Encode, chunks_of_length_le (by simp) (by simp),
      List.flatMap_singleton, encodeChunk_eq, Base64.encode_singleton]
    simp
  | [b₀, b₁] => by
    rw [base64Encode, chunks_of_length_le (by simp) (by simp),
      List.flatMap_singleton, encodeChunk_eq, Base64.encode_pair]
    simp
  | b₀ :: b₁ :: b₂ :: data => by
    have hpos : 0 < [b₀, b₁, b₂].length := by simp
    have hchunks : chunks 3 (b₀ :: b₁ :: b₂ :: data) = [b₀, b₁, b₂] :: chunks 3 data :=
      chunks_append hpos data
    rw [base64Encode, hchunks, List.flatMap_cons, encodeChunk_eq, Base64.encode_cons,
      ← base64Encode_eq data]
    rfl

/-- The text decodes to the bytes. -/
theorem decode_base64Encode (data : Bytes) : Base64.decode (base64Encode data) = some data := by
  rw [base64Encode_eq, Base64.decode_encode]

/-- A payload is sent as the encoding of RFC 4648: four characters for every three bytes that were
begun, all of the alphabet but for at most two padding characters at the end. The decoder of the
RFC, and the lenient one of the clients, return the payload. -/
theorem base64Encode_roundtrip (data : Bytes) :
    base64Encode data = Base64.encode data ∧
      (base64Encode data).length = 4 * ((data.length + 2) / 3) ∧
      (∃ cs pads, base64Encode data = cs ++ List.replicate pads '=' ∧
        (∀ c ∈ cs, c ∈ Base64.alphabet) ∧
        pads ≤ 2) ∧
      Base64.decode (base64Encode data) = some data ∧
        Base64.lenientDecode (base64Encode data) = some data := by
  refine ⟨base64Encode_eq data, ?_, ?_, decode_base64Encode data,
    Base64.lenientDecode_of_decode (decode_base64Encode data)⟩
  · rw [base64Encode_eq, Base64.length_encode]
  · rw [base64Encode_eq]
    exact Base64.exists_encode_eq data

end Serve

end EngramDB
