import ResumableUpload.Launch.Start
import ResumableUpload.Writer.File

/-
  Starting on a disk

  The surroundings of a program that is started in the top directory of a
  `Disk`: its files are there, and what it says is collected.
-/

namespace ResumableUpload

/-- A disk, and what a program started on it has said. -/
structure Desk where
  disk : Disk
  /-- The log file, once it is open. -/
  log : Option FileWriter
  /-- The lines of the console. -/
  console : List String
  /-- The lines of the error output. -/
  complaints : List String

namespace Desk

/-- A disk on which nothing was started. -/
def new (disk : Disk) : Desk := ⟨disk, none, [], []⟩

/-- The name of the configuration file. -/
def configName : String := "config.toml"

/-- The bytes of a file. -/
def fileBytes (d : Disk) (p : OsPath) : FileText :=
  match d.find p with
  | .error cause => .error cause
  | .ok (_, .file _ content) => .ok ⟨content.toBytes⟩
  | .ok _ => .error .isDirectory

/-- Makes an empty log file, with its directories. -/
def openLog (desk : Desk) (name : String) : Desk × Except OsError Unit :=
  let p := OsPath.ofText name
  match desk.disk.makeParents p with
  | (disk, .error cause) => ({ desk with disk }, .error cause)
  | (disk, .ok ()) =>
    match disk.replaceContent p .empty with
    | .error cause => ({ desk with disk }, .error cause)
    | .ok disk =>
      match disk.openForWriting p with
      | .error cause => ({ desk with disk }, .error cause)
      | .ok (disk, file) => ({ desk with disk, log := some ⟨file, 0⟩ }, .ok ())

/-- Adds a line to the log file, if there is one. -/
def appendLog (desk : Desk) (line : String) : Desk :=
  match desk.log with
  | none => desk
  | some w =>
    match w.writeAt desk.disk w.bytesWritten (line ++ "\n").toUTF8.data with
    | .error _ => desk
    | .ok (disk, w) => { desk with disk, log := some w }

/-- Says a line on the console and in the log file. -/
def say (stamp : String) (coloured : Bool) (line : LogLine) (desk : Desk) : Desk :=
  let desk := desk.appendLog (line.render stamp false)
  { desk with console := desk.console ++ [line.render stamp coloured] }

/-- The surroundings of a program on a disk, where every line has the same time stamp. -/
def host (stamp : String) (env : Environment) : Host (StateM Desk) where
  readConfig := do pure (fileBytes (← get).disk (OsPath.ofText configName))
  environment := pure env
  openLog name := modifyGet fun desk => (desk.openLog name).swap
  makeBase base := modifyGet fun desk =>
    let (disk, made) := desk.disk.makeDirectories (OsPath.ofText base)
    (made, { desk with disk })
  usedBytes base := do pure ((← get).disk.usedUnder (OsPath.ofText base))
  say coloured line := modify (say stamp coloured line)
  complain text := modify fun desk => { desk with complaints := desk.complaints ++ [text] }

/-- Starts the program; its exit code, and what it left. -/
def start (desk : Desk) (stamp : String) (env : Environment) : UInt32 × Desk :=
  (host stamp env).start.run desk

end Desk

end ResumableUpload
