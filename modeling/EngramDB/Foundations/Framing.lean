import EngramDB.Foundations.LittleEndian
import Mathlib.Data.List.TakeDrop

/-!
# Length-prefixed frames on a byte stream

A frame is its length in four bytes, the highest first, and then its bytes. A `Reader` is what the
receiver of a stream of frames has of the current one, and `Reader.feed` hands it the next piece of
the stream, however the stream was cut.

* `Reader.feed_of_consumed`: as long as what was read and what is still to come is a frame and more,
  a piece takes the reader further in the frame, or completes it and leaves the rest.
-/

namespace Framing

/-- Four bytes of a number, the highest first. -/
def be32 (n : ℕ) : List UInt8 := (LittleEndian.encode 4 n).reverse

/-- The number of four bytes, the highest first. -/
def ofBe32 (bytes : List UInt8) : ℕ := LittleEndian.decode bytes.reverse

@[simp]
theorem length_be32 (n : ℕ) : (be32 n).length = 4 := by
  rw [be32, List.length_reverse, LittleEndian.length_encode]

theorem ofBe32_be32 {n : ℕ} (h : n < 2 ^ 32) : ofBe32 (be32 n) = n := by
  rw [ofBe32, be32, List.reverse_reverse, LittleEndian.decode_encode_of_lt (by simpa using h)]

/-- The bytes of a frame on the stream. -/
def encodeFrame (frame : List UInt8) : List UInt8 := be32 frame.length ++ frame

theorem encodeFrame_ne_nil (frame : List UInt8) : encodeFrame frame ≠ [] := by
  intro h
  have hlen := congrArg List.length h
  simp [encodeFrame] at hlen

/-- What a receiver has of the current frame. -/
inductive Reader where
  /-- Some bytes of the length. -/
  | header (got : List UInt8)
  /-- The length, and some bytes of the frame. -/
  | body (len : ℕ) (got : List UInt8)
deriving DecidableEq, Repr

namespace Reader

/-- The receiver between two frames. -/
def start : Reader := .header []

/-- How many bytes the receiver asks for. -/
def missing : Reader → ℕ
  | .header got => 4 - got.length
  | .body len got => len - got.length

/-- The bytes of the current frame that were read. -/
def consumed : Reader → List UInt8
  | .header got => got
  | .body len got => be32 len ++ got

/-- Bytes are still missing, and a length has four bytes. -/
def WellFormed : Reader → Prop
  | .header got => got.length < 4
  | .body len got => got.length < len ∧ len < 2 ^ 32

theorem wellFormed_start : start.WellFormed := by simp [start, WellFormed]

/-- The receiver with one more piece of the stream: still on the way, or with the frame. -/
def feed (r : Reader) (piece : List UInt8) : Reader ⊕ List UInt8 :=
  match r with
  | .header got =>
    let got := got ++ piece
    if got.length < 4 then .inl (.header got)
    else if ofBe32 got = 0 then .inr []
    else .inl (.body (ofBe32 got) [])
  | .body len got =>
    let got := got ++ piece
    if got.length < len then .inl (.body len got) else .inr got

variable {r r' : Reader} {piece rest frame more : List UInt8}

/-- The header of a frame, once it is there, is its length. -/
theorem ofBe32_of_append {got rest : List UInt8} (hgot : got.length = 4)
    (hlen : frame.length < 2 ^ 32) (h : got ++ rest = encodeFrame frame ++ more) :
    ofBe32 got = frame.length ∧ rest = frame ++ more := by
  rw [encodeFrame, List.append_assoc] at h
  obtain ⟨rfl, hrest⟩ := List.append_inj h (by rw [hgot, length_be32])
  exact ⟨ofBe32_be32 hlen, hrest⟩

/-- A piece takes a reader further in its frame, or completes the frame. -/
theorem feed_of_consumed (hr : r.WellFormed) (hpiece : piece.length ≤ r.missing)
    (hlen : frame.length < 2 ^ 32)
    (h : r.consumed ++ piece ++ rest = encodeFrame frame ++ more) :
    (∃ r', r.feed piece = .inl r' ∧ r'.WellFormed ∧
      r'.consumed ++ rest = encodeFrame frame ++ more) ∨
    r.feed piece = .inr frame ∧ rest = more := by
  cases r with
  | header got =>
    simp only [WellFormed, missing, consumed] at hr hpiece h
    by_cases hshort : (got ++ piece).length < 4
    · exact .inl ⟨.header (got ++ piece), if_pos hshort, hshort, h⟩
    · -- the length is there
      have hfour : (got ++ piece).length = 4 := by
        rw [List.length_append] at hshort ⊢
        omega
      obtain ⟨hnum, hrest⟩ := ofBe32_of_append hfour hlen h
      by_cases hzero : frame.length = 0
      · have hnil := List.length_eq_zero_iff.mp hzero
        refine .inr ⟨?_, by rw [hrest, hnil, List.nil_append]⟩
        simp only [feed, if_neg hshort, hnum]
        rw [if_pos hzero, hnil]
      · refine .inl ⟨.body frame.length [], ?_, ⟨Nat.pos_of_ne_zero hzero, hlen⟩, ?_⟩
        · simp only [feed, if_neg hshort, hnum, if_neg hzero]
        · rw [consumed, List.append_nil, hrest, encodeFrame, List.append_assoc]
  | body len got =>
    simp only [WellFormed, missing, consumed] at hr hpiece h
    -- the length that was read is that of the frame
    rw [List.append_assoc, List.append_assoc] at h
    obtain ⟨hnum, hrest⟩ := ofBe32_of_append (length_be32 len) hlen h
    rw [ofBe32_be32 hr.2] at hnum
    subst hnum
    rw [← List.append_assoc] at hrest
    by_cases hshort : (got ++ piece).length < frame.length
    · refine .inl ⟨.body frame.length (got ++ piece), if_pos hshort, ⟨hshort, hlen⟩, ?_⟩
      rw [consumed, List.append_assoc, hrest, encodeFrame, List.append_assoc]
    · have hfull : (got ++ piece).length = frame.length := by
        rw [List.length_append] at hshort ⊢
        omega
      obtain ⟨hframe, hmore⟩ := List.append_inj hrest hfull
      exact .inr ⟨by rw [feed, if_neg hshort, hframe], hmore⟩

end Reader

end Framing
