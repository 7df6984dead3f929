import ResumableUpload.Engine.Session

/-
  Faults — calls whose operations on the disk may fail

  An operation of the disk may fail for a cause of its own: the disk is full, or
  a device is gone. A call is run with its faults, which say for each of its
  operations in turn whether it fails, and why. What the earlier operations did
  stays, and the one that fails may have done a part (`Delivery.fail`).

  What is held:
    1. `Faults` — what goes wrong with the operations of a call.
    2. `finishWith`, `resumeWith`, `driveWith`, `pumpWith`, `submitWith`,
       `deleteWith`, `discardWith` — the steps that work on the disk.
    3. `Session.performWith`, `Session.runWith` — calls with their faults.
       `performWith_nil` and `runWith_nil` say that without faults these are the
       calls of a session.

  As in a session, nothing happens between the operations for one fragment, and
  every one of them has come to its end when its call is over.
-/

namespace ResumableUpload

/-- For each operation of the disk in turn, how it fails if it does; those behind the last one listed go
their way. -/
abbrev Faults := List (Option DiskFault)

namespace Delivery

/-- Carries out all operations that are left, and gives the faults of the operations to come. -/
def finishWith (s : Storage) (path : String) (f : Fragment) : Faults → Disk → Delivery →
    (Disk × Except OsError FileWriter) × Faults
  | [], d, x => (x.finish s path f d, [])
  | some fault :: faults, d, x => ((x.fail s path f fault.done d, .error fault.cause), faults)
  | none :: faults, d, x =>
    match x.advance s path f d with
    | (d, .onward next) => finishWith s path f faults d next
    | (d, .ended result) => ((d, result), faults)

theorem finishWith_eq (s : Storage) (path : String) (f : Fragment) (faults : Faults) (d : Disk)
    (x : Delivery) : x.finishWith s path f faults d =
      match faults.head?.join with
      | some fault => ((x.fail s path f fault.done d, .error fault.cause), faults.tail)
      | none =>
        match x.advance s path f d with
        | (d, .onward next) => next.finishWith s path f faults.tail d
        | (d, .ended result) => ((d, result), faults.tail) := by
  cases faults with
  | nil =>
    show (x.finish s path f d, []) = _
    rw [finish_eq]
    cases x.advance s path f d with
    | mk d state => cases state <;> rfl
  | cons fault rest => cases fault <;> rfl

end Delivery

/-- Deletes a file; the one operation that this takes may fail. -/
def Storage.deleteWith (s : Storage) (d : Disk) (path : String) : Option DiskFault →
    Disk × Except Error Bool
  | none => s.delete d path
  | some fault =>
    match resolve path, fault.cause with
    | .error e, _ => (d, .error e)
    -- a file that is missing is no fault
    | .ok _, .notFound => (d, .ok false)
    | .ok _, cause => (d, .error (.io cause))

namespace Engine

/-- Lets a pump go on from its pause. -/
def resumeWith (e : Engine) (flight : Flight) (faults : Faults) : (Engine × Pumping) × Faults :=
  let ((disk, result), faults) := (Delivery.start flight.pump.writer).finishWith e.storage
    flight.pump.path flight.fragment faults e.disk
  ({ e with disk }.land flight result, faults)

/-- Resumes a pump until it ends, `left` times after the first at most. -/
def driveForWith (left : Nat) (e : Engine) (flight : Flight) (faults : Faults) :
    Engine × PumpResult :=
  match e.resumeWith flight faults with
  | ((e, .ended result), _) => (e, result)
  | ((e, .inFlight flight), faults) =>
    match left with
    -- never reached from `driveWith`: the queue was as long as `left` says
    | 0 => (e, .ok .cancelled)
    | left + 1 => driveForWith left e flight faults

/-- Resumes a pump until it ends. -/
def driveWith (e : Engine) (flight : Flight) (faults : Faults) : Engine × PumpResult :=
  driveForWith (e.waitingBehind flight) e flight faults

/-- Runs on from where a pump stands. -/
def settleWith (e : Engine) (faults : Faults) : Pumping → Engine × PumpResult
  | .ended result => (e, result)
  | .inFlight flight => e.driveWith flight faults

/-- Writes out the queue of the upload at `path`. -/
def pumpWith (e : Engine) (path : String) (faults : Faults) : Engine × PumpResult :=
  let (e, state) := e.begin path
  e.settleWith faults state

/-- Accepts a fragment and writes out the queue. -/
def submitWith (e : Engine) (path : String) (f : Fragment) (faults : Faults) :
    Engine × PumpResult :=
  let (e, state) := e.beginSubmit path f
  e.settleWith faults state

/-- Forgets the upload at `path` and deletes its file; whether there was a file. -/
def discardWith (e : Engine) (path : String) (faults : Faults) : Engine × Except Error Bool :=
  let e := e.remove path
  let (disk, deleted) := e.storage.deleteWith e.disk path faults.head?.join
  ({ e with disk }, deleted)

/-! ## Calls without faults -/

theorem driveForWith_nil (left : Nat) (e : Engine) (flight : Flight) :
    e.driveForWith left flight [] = e.driveFor left flight := by
  have hresume (e : Engine) (flight : Flight) : e.resumeWith flight [] = (e.resume flight, []) := rfl
  induction left generalizing e flight with
  | zero =>
    rw [driveForWith, driveFor, hresume]
    cases e.resume flight with
    | mk e state => cases state <;> rfl
  | succ left ih =>
    rw [driveForWith, driveFor, hresume]
    cases e.resume flight with
    | mk e state =>
      cases state with
      | ended result => rfl
      | inFlight next => exact ih e next

theorem settleWith_nil (e : Engine) (state : Pumping) : e.settleWith [] state = e.settle state := by
  cases state with
  | ended result => rfl
  | inFlight flight => exact driveForWith_nil _ e flight

end Engine

namespace Session

/-- Runs one call with its faults. -/
def performWith (s : Session) (faults : Faults) : Call → Session × Reply
  | .submit path fragment => s.answered (s.engine.submitWith path fragment faults)
  | .pump path => s.answered (s.engine.pumpWith path faults)
  | .discard path =>
    match s.engine.discardWith path faults with
    | (engine, .ok deleted) => (s.withEngine engine, .flag deleted)
    | (engine, .error e) => (s.withEngine engine, .failed e)
  | call => s.perform call

/-- Runs calls one after another, each with its faults. -/
def runWith (s : Session) : List (Call × Faults) → Session × List Reply
  | [] => (s, [])
  | (call, faults) :: rest =>
    let (s, reply) := s.performWith faults call
    let (s, replies) := s.runWith rest
    (s, reply :: replies)

theorem performWith_nil (s : Session) (call : Call) : s.performWith [] call = s.perform call := by
  cases call with
  | submit path f => exact congrArg s.answered (Engine.settleWith_nil _ _)
  | pump path => exact congrArg s.answered (Engine.settleWith_nil _ _)
  | _ => rfl

theorem runWith_nil (s : Session) (calls : List Call) :
    s.runWith (calls.map fun call => (call, [])) = s.run calls := by
  induction calls generalizing s with
  | nil => rfl
  | cons call rest ih =>
    rw [List.map_cons, runWith, run, performWith_nil]
    simp only [ih]

end Session

end ResumableUpload
