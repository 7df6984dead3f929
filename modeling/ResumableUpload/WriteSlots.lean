import ResumableUpload.Registry

/-
  Write slots — how many uploads may write at once

  A slot is held by a record that has its `writing` mark. Slots are not counted
  separately: the marks are counted whenever one is asked for, so a record that
  leaves the registry gives its slot back by leaving.

  What is held:
    1. `WriteSlots` — the ceiling, which is never zero.
    2. `acquire`, `release`, `setWriting`.

  Correspondence (admission ↔ library): `may_start_writing`, `try_acquire`,
  `release` and `set_writing` ↔ `mayStart`, `acquire`, `release` and `setWriting`.
-/

namespace ResumableUpload

/-- How many uploads may write at once. -/
structure WriteSlots where
  ceiling : Nat
  ceiling_pos : 0 < ceiling
  deriving DecidableEq

/-- The answer to a request for a slot. -/
inductive Grant where
  /-- The record holds a slot from now on. -/
  | granted
  /-- The record holds one already. -/
  | alreadyWriting
  /-- All slots are taken. -/
  | denied
  deriving DecidableEq, Repr

/-- Whether the slot was given by this request. -/
def Grant.isGranted : Grant → Bool
  | granted => true
  | _ => false

namespace WriteSlots

/-- Room for `n` writers, and for one at least. -/
def ofCount (n : Nat) : WriteSlots := ⟨max n 1, by omega⟩

instance : Inhabited WriteSlots := ⟨ofCount 1⟩

/-- Whether one more upload could start writing. -/
def mayStart (s : WriteSlots) (g : Registry) : Bool := g.writingCount < s.ceiling

/-- Takes a slot for the upload at `path`, if one is free and it holds none. -/
def acquire (s : WriteSlots) (g : Registry) (path : String) : Except UploadError (Registry × Grant) :=
  match g.get path with
  | .error e => .error e
  | .ok r =>
    if r.writing then .ok (g, .alreadyWriting)
    else if s.mayStart g then .ok (g.modify path fun r => r.withWriting true, .granted)
    else .ok (g, .denied)

/-- Gives back the slot of the upload at `path`; whether it held one. -/
def release (g : Registry) (path : String) : Registry × Bool :=
  match g.find? path with
  | none => (g, false)
  | some r => if r.writing then (g.modify path fun r => r.withWriting false, true) else (g, false)

/-- Takes or gives back the slot of the upload at `path`; whether it holds one then. -/
def setWriting (s : WriteSlots) (g : Registry) (path : String) (value : Bool) :
    Except UploadError (Registry × Bool) :=
  if value then
    match s.acquire g path with
    | .error e => .error e
    | .ok (g, grant) => .ok (g, grant != .denied)
  else
    match g.get path with
    | .error e => .error e
    | .ok _ => .ok ((release g path).1, false)

end WriteSlots

end ResumableUpload
