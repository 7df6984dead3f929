import ResumableUpload.Delivery
import ResumableUpload.Engine.Basic

/-
  Pump — writing an upload's queue to its file

  A pump takes a write slot for one upload and writes its queue, oldest first.
  It pauses whenever a fragment is on its way to the disk; everything between
  two pauses happens at once. While it pauses, other calls may add to the
  queue, remove the upload or register its path anew, so a pump remembers the
  registration it serves and looks at it again after each pause.

  A failed write is reported by an event and the pump goes on with the next
  fragment; the first failure is the result of the pump. The pump gives its
  slot back in the same step in which it finds the queue empty.

  What is held:
    1. `Pump`, `Flight` — a pump between fragments, and one with a fragment on
       its way.
    2. `begin`, `resume`, `abandon` — the steps of a pump.
    3. `drive`, `pump`, `submit` — a pump run to its end.

  ── ASSUMED ──────────────────────────────────────────────────────────────────
    - A pump pauses for its fragment and nowhere else. `resume` has all operations
      for the fragment as one step, where nothing else happens between them;
      `Rounds` and the moves of a course take them one by one.
    - `abandon` is the end of a pump that nobody waits for any more. What the pump
      had asked of the disk is not part of it: a course has that as a move of its
      own, a session has dropped the pump before it asked.

  Correspondence (engine ↔ library):
    `submit_fragment`, `pump`                ↔ `submit`, `pump`
    `drain`, from one pause to the next      ↔ `land` and `takeNext`
    `write_fragment`                         ↔ `Delivery`
    a slot guard that is dropped             ↔ `abandon`
-/

namespace ResumableUpload

/-- What a pump came to. -/
inductive PumpOutcome where
  /-- The queue was written out and the slot given back. -/
  | drained (saved : Nat) (completed : Bool)
  /-- No slot was free; the fragments stay queued. -/
  | deferred
  /-- Another pump is writing the queue. -/
  | busy
  /-- The upload was removed meanwhile. -/
  | cancelled
  deriving DecidableEq, Repr

/-- The end of a pump. -/
abbrev PumpResult := Except UploadError PumpOutcome

/-- A pump that holds a slot. -/
structure Pump where
  path : String
  /-- The registration it serves. -/
  id : UploadId
  /-- The file it writes, once it has opened it. -/
  writer : Option FileWriter
  /-- The first failure. -/
  failure : Option UploadError
  deriving DecidableEq, Repr

/-- The bytes written through the file that is open. -/
def Pump.written (p : Pump) : Nat := p.writer.elim 0 FileWriter.bytesWritten

/-- A pump with a fragment on its way to the disk. -/
structure Flight where
  pump : Pump
  fragment : Fragment
  deriving DecidableEq, Repr

/-- Where a pump stands after a step. -/
inductive Pumping where
  | ended (result : PumpResult)
  | inFlight (flight : Flight)

namespace Engine

/-- Takes the next fragment, or ends where none waits. -/
def takeNext (e : Engine) (p : Pump) : Engine × Pumping :=
  match e.registry.owned? p.path p.id with
  | none => (e, .ended (.ok .cancelled))
  | some r =>
    match r.queue.pop? with
    | some (f, queue) => (e.modify p.path fun r => r.withQueue queue, .inFlight ⟨p, f⟩)
    | none =>
      -- the slot goes back before the result is known: a failure keeps no slot
      let e := (e.modify p.path (fun r => r.withWriting false) (Record.path_withWriting false)).note
        (.queueDrained p.path p.written r.saved)
      match p.failure with
      | some failure => (e, .ended (.error failure))
      | none => (e, .ended (.ok (.drained r.saved r.completed)))

/-- Takes a slot for the upload at `path` and its first fragment. -/
def begin (e : Engine) (path : String) : Engine × Pumping :=
  match e.slots.acquire e.registry path with
  | .error err => (e, .ended (.error err))
  | .ok (_, .alreadyWriting) => (e, .ended (.ok .busy))
  | .ok (_, .denied) => (e.note (.slotDenied path), .ended (.ok .deferred))
  | .ok (registry, .granted) =>
    match registry.get path with
    | .error err => (e, .ended (.error err))
    | .ok r => { e with registry }.takeNext ⟨path, r.id, none, none⟩

/-- Accounts a failed write: the next one opens the file again. -/
def accountFailure (e : Engine) (flight : Flight) (cause : OsError) : Engine × Pump :=
  let p := flight.pump
  let f := flight.fragment
  let failure := p.failure.getD (.writeFailure p.path f.position f.len cause)
  ((e.note (.writeFailed p.path f.position f.len cause.message)).emit
      (.failed p.path f.position f.len cause.message),
    { p with writer := none, failure := some failure })

/-- Accounts a finished write of the record `r`; the one that completes the upload is announced. -/
def accountWrite (e : Engine) (flight : Flight) (r : Record) (w : FileWriter) : Engine × Pump :=
  let p := flight.pump
  let f := flight.fragment
  let range : ByteRange := ⟨f.position, f.stop⟩
  let after := r.recordWrite range
  let e := (e.modify p.path fun r => r.recordWrite range).note
    (.fragmentWritten p.path f.position f.len after.saved)
  let e :=
    if after.completed && !r.completed then
      (e.note (.completed p.path r.size)).emit (.completed p.path r.size)
    else e
  (e, { p with writer := some w })

/-- Accounts the fragment in flight once its delivery has ended, and takes the next one. If the upload
is gone, what was written stays, and counts for nothing. -/
def land (e : Engine) (flight : Flight) (result : Except OsError FileWriter) : Engine × Pumping :=
  match e.registry.owned? flight.pump.path flight.pump.id with
  | none =>
    (e.note (.resultDiscarded flight.pump.path flight.fragment.position), .ended (.ok .cancelled))
  | some r =>
    match result with
    | .error cause => let (e, p) := e.accountFailure flight cause; e.takeNext p
    | .ok w => let (e, p) := e.accountWrite flight r w; e.takeNext p

/-- Lets a pump go on from its pause: the fragment in flight is written and accounted, and the next
one taken. -/
def resume (e : Engine) (flight : Flight) : Engine × Pumping :=
  -- the bytes reach the disk before anyone asks whether the upload still stands
  let (disk, result) := (Delivery.start flight.pump.writer).finish e.storage flight.pump.path
    flight.fragment e.disk
  { e with disk }.land flight result

/-- Drops a pump at its pause: its fragment is lost, and its slot given back if the upload is still
the one it serves. -/
def abandon (e : Engine) (flight : Flight) : Engine :=
  match e.registry.owned? flight.pump.path flight.pump.id with
  | none => e
  | some _ =>
    (e.modify flight.pump.path (fun r => r.withWriting false) (Record.path_withWriting false)).note
      (.slotReleased flight.pump.path)

/-! ## Running to the end -/

/-- How many fragments wait behind the one in flight. -/
def waitingBehind (e : Engine) (flight : Flight) : Nat :=
  (e.registry.owned? flight.pump.path flight.pump.id).elim 0 fun r => r.queue.size

/-- Resumes a pump until it ends, `left` times after the first at most. -/
def driveFor (left : Nat) (e : Engine) (flight : Flight) : Engine × PumpResult :=
  match e.resume flight with
  | (e, .ended result) => (e, result)
  | (e, .inFlight flight) =>
    match left with
    -- never reached from `drive`: the queue was as long as `left` says
    | 0 => (e, .ok .cancelled)
    | left + 1 => driveFor left e flight

/-- Resumes a pump until it ends. Each step takes a fragment off the queue, so the fragments that
wait bound the steps. -/
def drive (e : Engine) (flight : Flight) : Engine × PumpResult :=
  driveFor (e.waitingBehind flight) e flight

/-- Runs on from where a pump stands. -/
def settle (e : Engine) : Pumping → Engine × PumpResult
  | .ended result => (e, result)
  | .inFlight flight => e.drive flight

/-- Writes out the queue of the upload at `path`. -/
def pump (e : Engine) (path : String) : Engine × PumpResult :=
  let (e, state) := e.begin path
  e.settle state

/-- Accepts a fragment into the queue. -/
def accept (e : Engine) (path : String) (f : Fragment) : Except UploadError Engine :=
  match e.registry.enqueue path f with
  | .error err => .error err
  | .ok registry => .ok ({ e with registry }.note (.fragmentQueued path f.position f.len))

/-- Accepts a fragment and begins to write the queue. -/
def beginSubmit (e : Engine) (path : String) (f : Fragment) : Engine × Pumping :=
  match e.accept path f with
  | .error err => (e, .ended (.error err))
  | .ok e => e.begin path

/-- Accepts a fragment and writes out the queue. -/
def submit (e : Engine) (path : String) (f : Fragment) : Engine × PumpResult :=
  let (e, state) := e.beginSubmit path f
  e.settle state

end Engine

end ResumableUpload
