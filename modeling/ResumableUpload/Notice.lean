/-
  Notice — what the engine writes into its journal

  A notice is a cause with its figures. Its level, text and named fields are
  derived from it.
-/

namespace ResumableUpload

/-- How urgent a notice is. -/
inductive Level where
  | trace | debug | info | warn | error
  deriving DecidableEq, Repr

namespace Level

/-- The more urgent a level, the higher its rank. -/
def rank : Level → Nat
  | trace => 0
  | debug => 1
  | info => 2
  | warn => 3
  | error => 4

/-- The name of a level. -/
def label : Level → String
  | trace => "TRACE"
  | debug => "DEBUG"
  | info => "INFO"
  | warn => "WARN"
  | error => "ERROR"

end Level

/-- The value of a field. -/
inductive FieldValue where
  | text (value : String)
  | number (value : Int)
  | flag (value : Bool)
  deriving DecidableEq, Repr

/-- Something the engine notes down. -/
inductive Notice where
  | initialized (path : String) (size : Nat) (owner : Int)
  | initializedWithinQuota (path : String) (size : Nat) (owner : Int)
  | emptyCompleted (path : String)
  | completed (path : String) (size : Nat)
  | fragmentQueued (path : String) (position len : Nat)
  | slotDenied (path : String)
  | fragmentWritten (path : String) (position len saved : Nat)
  | writeFailed (path : String) (position len : Nat) (cause : String)
  | resultDiscarded (path : String) (position : Nat)
  | queueDrained (path : String) (written saved : Nat)
  | slotReleased (path : String)
  | removed (path : String) (saved : Nat) (completed : Bool)
  deriving DecidableEq, Repr

namespace Notice

/-- How urgent the notice is. -/
def level : Notice → Level
  | initialized .. | initializedWithinQuota .. | emptyCompleted .. | completed .. | removed .. => .info
  | fragmentQueued .. | slotDenied .. | fragmentWritten .. | queueDrained .. | slotReleased .. => .debug
  | writeFailed .. | resultDiscarded .. => .warn

/-- The text of the notice. -/
def message : Notice → String
  | initialized .. => "Upload initialized"
  | initializedWithinQuota .. => "Upload initialized within quota"
  | emptyCompleted .. => "Upload completed"
  | completed .. => "Upload completed"
  | fragmentQueued .. => "Fragment queued"
  | slotDenied .. => "Write slot denied, fragments stay queued"
  | fragmentWritten .. => "Fragment written"
  | writeFailed _ _ _ cause => "Write failed: " ++ cause
  | resultDiscarded .. => "Upload removed during write, result discarded"
  | queueDrained .. => "Queue drained"
  | slotReleased .. => "Write slot released by dropped pump"
  | removed .. => "Upload removed"

/-- The path of the upload the notice is about. -/
def path : Notice → String
  | initialized path .. | initializedWithinQuota path .. | emptyCompleted path | completed path ..
  | fragmentQueued path .. | slotDenied path | fragmentWritten path .. | writeFailed path ..
  | resultDiscarded path .. | queueDrained path .. | slotReleased path | removed path .. => path

/-- The fields beside the path. -/
def figures : Notice → List (String × FieldValue)
  | initialized _ size owner | initializedWithinQuota _ size owner =>
    [("size", .number size), ("owner_id", .number owner)]
  | emptyCompleted _ | slotDenied _ | slotReleased _ => []
  | completed _ size => [("size", .number size)]
  | fragmentQueued _ position len => [("position", .number position), ("len", .number len)]
  | fragmentWritten _ position len saved =>
    [("position", .number position), ("len", .number len), ("saved", .number saved)]
  | writeFailed _ position len _ => [("position", .number position), ("len", .number len)]
  | resultDiscarded _ position => [("position", .number position)]
  | queueDrained _ written saved => [("written", .number written), ("saved", .number saved)]
  | removed _ saved wasCompleted => [("saved", .number saved), ("completed", .flag wasCompleted)]

/-- The named fields. -/
def fields (n : Notice) : List (String × FieldValue) := ("path", .text n.path) :: n.figures

end Notice

end ResumableUpload
