import ResumableUpload.Coverage
import ResumableUpload.Fragment.Queue
import ResumableUpload.Path

/-
  Record — one upload in progress

  A record is what is known of one upload from its registration to its removal:
  what the client declared, what has arrived, what waits and what is on disk.

  What is held:
    1. `Record` and its changes: `enqueue`, `dequeue`, `recordWrite`,
       `withWriting`.
    2. `Ticket` — what a client is handed at registration.
    3. `Status` — what a client is shown.

  The size, the offsets and the counts are words where the program runs; here they
  are numbers. Registrations are numbered one after another, where the program
  draws an identifier that it takes to be new.

  Correspondence (record ↔ library): `enqueue`, `record_write`, `status` and
  `handle` ↔ `enqueue`, `recordWrite`, `status` and `ticket`.
-/

namespace ResumableUpload

/-- The number of a registration; no two registrations share one. -/
abbrev UploadId := Nat

/-- One upload in progress. -/
structure Record where
  id : UploadId
  /-- The storage path it was registered under. -/
  path : String
  /-- The name it is shown under. -/
  name : String
  /-- The declared size. -/
  size : Nat
  /-- The bytes of all fragments accepted. -/
  received : Nat
  coverage : Coverage
  /-- Whether as many bytes were written as declared. -/
  completed : Bool
  /-- Whether it holds a write slot. -/
  writing : Bool
  queue : FragmentQueue
  owner : Int
  /-- The path the client gave. -/
  clientPath : String
  deriving DecidableEq, Repr

/-- What a client is handed at registration. -/
structure Ticket where
  id : UploadId
  path : String
  size : Nat
  owner : Int
  deriving DecidableEq, Repr

/-- What a client is shown of an upload. -/
structure Status where
  name : String
  size : Nat
  received : Nat
  saved : Nat
  completed : Bool
  fragmentsQueued : Nat
  bytesQueued : Nat
  writing : Bool
  owner : Int
  clientPath : String
  deriving DecidableEq, Repr

namespace Record

/-- A fresh record. An upload of no bytes is complete from the start. -/
def new (id : UploadId) (path : String) (size : Nat) (owner : Int) (clientPath : String) : Record where
  id := id
  path := path
  name := Path.displayName path
  size := size
  received := 0
  coverage := .empty
  completed := Coverage.empty.isComplete size
  writing := false
  queue := .empty
  owner := owner
  clientPath := clientPath

/-- The bytes written, each as often as it was written. -/
def saved (r : Record) : Nat := r.coverage.saved

/-- The record with a fragment accepted. -/
def enqueue (r : Record) (f : Fragment) : Record :=
  { r with received := r.received + f.len, queue := r.queue.push f }

/-- The record with another queue. -/
def withQueue (r : Record) (queue : FragmentQueue) : Record := { r with queue }

/-- The record with its slot taken or given back. -/
def withWriting (r : Record) (writing : Bool) : Record := { r with writing }

theorem path_withWriting (writing : Bool) (r : Record) : (r.withWriting writing).path = r.path := rfl

/-- The record after a finished write. -/
def recordWrite (r : Record) (range : ByteRange) : Record :=
  let coverage := r.coverage.record range
  { r with coverage, completed := coverage.isComplete r.size }

/-- Whether fragments wait and nobody is writing them. -/
def isPending (r : Record) : Bool := !r.writing && !r.queue.isEmpty

/-- What the client is handed. -/
def ticket (r : Record) : Ticket := ⟨r.id, r.path, r.size, r.owner⟩

/-- What the client is shown. -/
def status (r : Record) : Status where
  name := r.name
  size := r.size
  received := r.received
  saved := r.saved
  completed := r.completed
  fragmentsQueued := r.queue.size
  bytesQueued := r.queue.queuedBytes
  writing := r.writing
  owner := r.owner
  clientPath := r.clientPath

end Record

end ResumableUpload
