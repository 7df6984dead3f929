import ResumableUpload.Content

/-
  Fragment — a piece of an upload

  Clients send a file in pieces, in any order. Each piece names the offset it
  belongs at.
-/

namespace ResumableUpload

/-- Bytes and the offset they belong at. -/
structure Fragment where
  position : Nat
  bytes : Bytes
  deriving DecidableEq, Repr

namespace Fragment

/-- How many bytes the fragment carries. -/
def len (f : Fragment) : Nat := f.bytes.size

/-- Whether it carries none. -/
def isEmpty (f : Fragment) : Bool := f.len == 0

/-- The offset after its last byte. -/
def stop (f : Fragment) : Nat := f.position + f.len

end Fragment

end ResumableUpload
