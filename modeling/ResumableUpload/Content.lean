/-
  Content — the bytes of one file

  A content has a length and a byte at every offset; from the length on every
  byte is zero. Files may be sparse and far longer than anything that is held
  in memory, so the bytes are a function of the offset and a write is one more
  case of that function. Two contents with the same length and the same bytes
  are equal (`Content.ext`), whatever writes produced them.

  What is held:
    1. `overlay` — a payload laid at an offset. A gap before it reads as zero;
       a payload of no bytes changes nothing.
    2. `padTo` — zeros up to a length.
    3. `firstBytes` — the leading bytes, for reading back.
-/

namespace ResumableUpload

/-- A payload, or bytes read back. -/
abbrev Bytes := Array UInt8

/-- What a file holds. -/
@[ext]
structure Content where
  /-- The length in bytes. -/
  size : Nat
  /-- The byte at each offset. -/
  byte : Nat → UInt8
  /-- Nothing but zeros lies at or after the length. -/
  byte_of_size_le : ∀ i, size ≤ i → byte i = 0

namespace Content

/-- No bytes. -/
def empty : Content := ⟨0, fun _ => 0, fun _ _ => rfl⟩

instance : Inhabited Content := ⟨empty⟩

/-- `n` zero bytes. -/
def zeros (n : Nat) : Content := ⟨n, fun _ => 0, fun _ _ => rfl⟩

/-- The length after `len` bytes were laid at `position`: no bytes extend nothing. -/
def sizeAfter (size position len : Nat) : Nat :=
  if len = 0 then size else max size (position + len)

/-- The byte at `i` once `bytes` lie at `position` over `old`. -/
def laid (old : Nat → UInt8) (position : Nat) (bytes : Bytes) (i : Nat) : UInt8 :=
  if position ≤ i then (bytes[i - position]?).getD (old i) else old i

/-- The content with `bytes` laid at `position`. -/
def overlay (c : Content) (position : Nat) (bytes : Bytes) : Content where
  size := sizeAfter c.size position bytes.size
  byte := laid c.byte position bytes
  byte_of_size_le := by
    intro i hi
    unfold sizeAfter at hi
    unfold laid
    have hold : c.size ≤ i := by split at hi <;> omega
    split
    · have hout : bytes.size ≤ i - position := by split at hi <;> omega
      rw [Array.getElem?_eq_none hout]
      exact c.byte_of_size_le i hold
    · exact c.byte_of_size_le i hold

/-- The content holding just `bytes`. -/
def ofBytes (bytes : Bytes) : Content := empty.overlay 0 bytes

/-- The content with zeros appended up to length `n`; a longer one stays as it is. -/
def padTo (c : Content) (n : Nat) : Content where
  size := max c.size n
  byte := c.byte
  byte_of_size_le := fun i hi => c.byte_of_size_le i (by omega)

/-- The first `n` bytes, or all of them if there are fewer. -/
def firstBytes (c : Content) (n : Nat) : Bytes :=
  ((List.range (min n c.size)).map c.byte).toArray

/-- Every byte in order. -/
def toBytes (c : Content) : Bytes := c.firstBytes c.size

theorem size_overlay (c : Content) (position : Nat) (bytes : Bytes) :
    (c.overlay position bytes).size = sizeAfter c.size position bytes.size := rfl

theorem byte_overlay (c : Content) (position : Nat) (bytes : Bytes) (i : Nat) :
    (c.overlay position bytes).byte i = laid c.byte position bytes i := rfl

theorem overlay_empty (c : Content) (position : Nat) : c.overlay position #[] = c := by
  ext i
  · simp [size_overlay, sizeAfter]
  · simp [byte_overlay, laid]

theorem overlay_append (c : Content) (position : Nat) (a b : Bytes) :
    (c.overlay position a).overlay (position + a.size) b = c.overlay position (a ++ b) := by
  ext i
  · simp only [size_overlay, sizeAfter, Array.size_append]
    grind
  · simp only [byte_overlay, laid, Array.getElem?_append]
    grind

end Content

end ResumableUpload
