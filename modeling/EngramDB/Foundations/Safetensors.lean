import EngramDB.Foundations.LittleEndian

/-!
# Files of tensors

A file of tensors starts with the length of its header, in 8 bytes, the lowest first. The header
follows, then the data. A tensor is a range of the data.

* `headerLength_frame`, `header_frame`: the header of a file that was put together is read back;
* `range_frame`: so is every range of its data.
-/

namespace Safetensors

/-- A file with this text as its header, and data. -/
def frame (text data : List UInt8) : List UInt8 :=
  LittleEndian.encode 8 text.length ++ (text ++ data)

/-- The length of the header, if the file is long enough to say. -/
def headerLength (file : List UInt8) : Option ℕ :=
  if 8 ≤ file.length then some (LittleEndian.decode (file.take 8)) else none

/-- The header of a file, by its length. -/
def header (file : List UInt8) (length : ℕ) : List UInt8 := (file.drop 8).take length

/-- What a file has from a place in its data on. -/
def dataFrom (file : List UInt8) (length start : ℕ) : List UInt8 := file.drop (8 + length + start)

variable {text data : List UInt8}

theorem headerLength_frame (h : text.length < 2 ^ 64) :
    headerLength (frame text data) = some text.length := by
  have hlength := LittleEndian.length_encode 8 text.length
  have hle : 8 ≤ (frame text data).length := by
    rw [frame, List.length_append, hlength]
    exact Nat.le_add_right _ _
  rw [headerLength, if_pos hle, frame, List.take_left' hlength,
    LittleEndian.decode_encode_of_lt (Nat.lt_of_lt_of_eq h (by norm_num))]

theorem header_frame : header (frame text data) text.length = text := by
  rw [header, frame, List.drop_left' (LittleEndian.length_encode 8 _), List.take_left' rfl]

theorem dataFrom_frame (start : ℕ) :
    dataFrom (frame text data) text.length start = data.drop start := by
  have hlength := LittleEndian.length_encode 8 text.length
  rw [dataFrom, frame, Nat.add_assoc, ← List.drop_drop, List.drop_left' hlength, ← List.drop_drop,
    List.drop_left' rfl]

/-- A tensor of a file that was put together. -/
theorem range_frame (before tensor after : List UInt8) :
    (dataFrom (frame text (before ++ tensor ++ after)) text.length before.length).take
      tensor.length = tensor := by
  rw [dataFrom_frame, List.append_assoc, List.drop_left' rfl, List.take_left' rfl]

end Safetensors
