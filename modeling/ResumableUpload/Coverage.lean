/-
  Coverage — which bytes of an upload are on disk

  Every finished write adds its range at the end of a list. Ranges are never
  merged: bytes written twice count twice, and the total may exceed the size.

  What is held:
    1. `coveredBytes` — the lengths of ranges, summed.
    2. `Coverage` — the ranges and their total; `record` adds one.

  Correspondence (tracker ↔ library): `record`, `is_complete` and `covered_bytes` ↔
  `record`, `isComplete` and `coveredBytes`; `coveredWord?` sums in words.
-/

namespace ResumableUpload

/-- The offsets from `start` up to, and without, `stop`. -/
structure ByteRange where
  start : Nat
  stop : Nat
  deriving DecidableEq, Repr

/-- How many offsets lie in the range; one that ends before it starts has none. -/
def ByteRange.length (r : ByteRange) : Nat := r.stop - r.start

/-- The lengths of the ranges, summed. -/
def coveredBytes (ranges : List ByteRange) : Nat := (ranges.map ByteRange.length).foldr (· + ·) 0

/-- The finished writes of an upload. -/
structure Coverage where
  /-- The ranges, in the order the writes finished. -/
  ranges : List ByteRange
  /-- The bytes written, each as often as it was written. -/
  saved : Nat
  deriving DecidableEq, Repr

namespace Coverage

/-- Nothing written. -/
def empty : Coverage := ⟨[], 0⟩

instance : Inhabited Coverage := ⟨empty⟩

/-- The coverage after one more write. -/
def record (c : Coverage) (r : ByteRange) : Coverage :=
  ⟨c.ranges ++ [r], c.saved + r.length⟩

/-- Whether as many bytes were written as the upload has. -/
def isComplete (c : Coverage) (size : Nat) : Bool := size ≤ c.saved

theorem coveredBytes_record (c : Coverage) (r : ByteRange) :
    coveredBytes (c.record r).ranges = coveredBytes c.ranges + r.length := by
  show ((c.ranges ++ [r]).map ByteRange.length).sum = (c.ranges.map ByteRange.length).sum + r.length
  simp

theorem saved_record {c : Coverage} (h : c.saved = coveredBytes c.ranges) (r : ByteRange) :
    (c.record r).saved = coveredBytes (c.record r).ranges := by
  rw [coveredBytes_record, ← h]
  rfl

theorem isComplete_iff (c : Coverage) (size : Nat) : c.isComplete size = true ↔ size ≤ c.saved := by
  simp [isComplete]

end Coverage

end ResumableUpload
