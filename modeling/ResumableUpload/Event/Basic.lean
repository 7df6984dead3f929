/-
  Event — what subscribers are told

  An event names the upload by its path. A failed write is named by the place
  and the length of its fragment, since the call that sent the fragment may
  have returned before it was written.
-/

namespace ResumableUpload

/-- What happened to an upload. -/
inductive Event where
  /-- As many bytes were written as declared. -/
  | completed (path : String) (size : Nat)
  /-- A fragment did not reach the disk. -/
  | failed (path : String) (position len : Nat) (message : String)
  /-- The upload was taken out of the registry. -/
  | removed (path : String)
  deriving DecidableEq, Repr

/-- The path of the upload. -/
def Event.path : Event → String
  | completed path _ => path
  | failed path _ _ _ => path
  | removed path => path

end ResumableUpload
