import ResumableUpload.Content
import ResumableUpload.OsError

/-
  Positional writes to a target that takes bytes in bursts

  A target takes at most `burst` bytes per write call, at the cursor. One that
  stalls answers the call after each accepted one with "not yet". A positional
  write seeks, offers the remaining bytes until none remain, and flushes.

  What is held:
    1. `Target` and one write call to it, `Target.offer`.
    2. `Target.writeAll` — offers until nothing remains.
    3. `Writer.writeAt` — a positional write, with the bytes of whole
       successful writes counted. Its report tells what each call took.

  A target is asked again after a "not yet" until it answers; how long that takes
  is not held.

  Correspondence (writer ↔ library): `write_at` ↔ `Writer.writeAt`; the writes of
  all bytes inside it ↔ `Target.writeAll`.
-/

namespace ResumableUpload

/-- What goes wrong during one positional write. -/
inductive Fault where
  /-- The seek is refused. -/
  | seek
  /-- Once `after` bytes were accepted, the next write call is refused. -/
  | write (after : Nat)
  /-- The flush is refused. -/
  | flush
  deriving DecidableEq, Repr

/-- The bytes that a write may still place before its call is refused. -/
def Fault.budget? : Option Fault → Option Nat
  | some (write after) => some after
  | _ => none

/-- Something that takes bytes in bursts. -/
structure Target where
  content : Content
  /-- The most bytes taken by one call. -/
  burst : Nat
  /-- Whether a call that was accepted is followed by one that is put off. -/
  stalls : Bool
  /-- Positions beyond this are refused by the seek. -/
  lastPosition : Nat
  /-- Whether the next call is put off. -/
  busy : Bool
  /-- The flushes so far. -/
  flushes : Nat

namespace Target

/-- A target that holds nothing, and takes positions up to 65536. -/
def new (burst : Nat) (stalls : Bool) : Target := ⟨.empty, burst, stalls, 65536, false, 0⟩

/-- The answer to one write call. -/
inductive Answer where
  /-- Not yet: the call has to be repeated. -/
  | later
  | accepted (count : Nat)
  | refused (cause : OsError)
  deriving DecidableEq, Repr

/-- One write call at `cursor`. An accepted call fills the gap before the cursor with zeros, even
where it takes no byte. -/
def offer (t : Target) (budget? : Option Nat) (cursor : Nat) (bytes : Bytes) : Target × Answer :=
  -- a call that is put off sees no fault
  if t.busy then ({ t with busy := false }, .later)
  else if budget? = some 0 then (t, .refused (.other "device full"))
  else
    let count := min (min t.burst bytes.size) (budget?.getD bytes.size)
    ({ t with
        content := (t.content.padTo cursor).overlay cursor (bytes.extract 0 count)
        busy := t.stalls }, .accepted count)

/-- What came of offering bytes until none remain. -/
structure Progress where
  target : Target
  /-- What each accepted call took. -/
  taken : List Bytes
  result : Except OsError Unit

/-- The progress with a chunk before its own. -/
def Progress.after (p : Progress) (chunk : Bytes) : Progress := { p with taken := chunk :: p.taken }

/-- Offers `bytes` from `cursor` on, in at most `calls` calls. -/
def writeAll (calls : Nat) (t : Target) (budget? : Option Nat) (cursor : Nat) (bytes : Bytes) :
    Progress :=
  match calls with
  | 0 => ⟨t, [], .error (.other "write zero")⟩
  | calls + 1 =>
    if bytes.size = 0 then ⟨t, [], .ok ()⟩
    else match t.offer budget? cursor bytes with
      | (t, .later) => writeAll calls t budget? cursor bytes
      | (t, .refused cause) => ⟨t, [], .error cause⟩
      | (t, .accepted 0) => ⟨t, [#[]], .error (.other "write zero")⟩
      | (t, .accepted (n + 1)) =>
        (writeAll calls t (budget?.map (· - (n + 1))) (cursor + (n + 1))
          (bytes.extract (n + 1) bytes.size)).after (bytes.extract 0 (n + 1))

/-- The calls that always suffice: two for each byte, and two for a last refusal. -/
def callsFor (bytes : Bytes) : Nat := 2 * bytes.size + 2

end Target

/-- A target written at positions. -/
structure Writer where
  target : Target
  /-- The bytes of all writes that succeeded as a whole. -/
  bytesWritten : Nat

/-- What one positional write came to. -/
structure WriteReport where
  /-- What each accepted call took. -/
  taken : List Bytes
  result : Except OsError Unit

/-- How many bytes each accepted call took. -/
def WriteReport.chunks (r : WriteReport) : List Nat := r.taken.map Array.size

namespace Writer

/-- A writer on a target that nothing was written to. -/
def new (target : Target) : Writer := ⟨target, 0⟩

/-- Writes `bytes` at `position`, under a fault if there is one. -/
def writeAt (w : Writer) (fault? : Option Fault) (position : Nat) (bytes : Bytes) :
    Writer × WriteReport :=
  if fault? = some .seek ∨ w.target.lastPosition < position then
    (w, ⟨[], .error (.other "seek refused")⟩)
  else
    let p := w.target.writeAll (Target.callsFor bytes) (Fault.budget? fault?) position bytes
    match p.result with
    | .error cause => ({ w with target := p.target }, ⟨p.taken, .error cause⟩)
    | .ok () =>
      if fault? = some .flush then
        ({ w with target := p.target }, ⟨p.taken, .error (.other "flush refused")⟩)
      else
        ({ target := { p.target with flushes := p.target.flushes + 1 }
           bytesWritten := w.bytesWritten + bytes.size }, ⟨p.taken, .ok ()⟩)

end Writer

end ResumableUpload
