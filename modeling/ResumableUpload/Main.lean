import ResumableUpload.Launch.Start
import Std.Time.Format

/-
  The command line

  The program, started in the directory that holds its configuration file. This
  module is the outermost layer: it gives `Host.start` the operating system to
  work on. What is done, in which order, and what is said of it stands there.
-/

namespace ResumableUpload

namespace Machine

/-- The number of an error, which some calls report negated. -/
def errorNumber (code : UInt32) : Nat :=
  if code.toNat < Nat.pow 2 31 then code.toNat else Nat.pow 2 32 - code.toNat

/-- The failure an error number stands for; `details` is what the operating system says of it. -/
def failureOf (code : UInt32) (details : String) : OsError :=
  match errorNumber code with
  | 2 => .notFound
  | 17 => .exists
  | 20 => .notDirectory
  | 21 => .isDirectory
  | 22 => .invalidArgument
  | 36 => .nameTooLong
  | 39 => .notEmpty
  | 40 => .linkLoop
  | n => .other (details.capitalize ++ " (os error " ++ toString n ++ ")")

/-- A failure of the operating system. -/
def failure : IO.Error → OsError
  | .noFileOrDirectory _ code details => failureOf code details
  | .alreadyExists _ code details => failureOf code details
  | .permissionDenied _ code details => failureOf code details
  | .inappropriateType _ code details => failureOf code details
  | .invalidArgument _ code details => failureOf code details
  | .resourceExhausted _ code details => failureOf code details
  | .otherError code details => failureOf code details
  | e => .other (toString e)

/-- An action, with its failure as a value. -/
def caught {α : Type} (action : IO α) : IO (Except OsError α) := do
  match ← action.toBaseIO with
  | .ok a => pure (.ok a)
  | .error e => pure (.error (failure e))

/-- The time, as it stands before a log line. -/
def timeStamp : IO String := do
  let now := Std.Time.DateTime.ofTimestamp (← Std.Time.Timestamp.now) Std.Time.TimeZone.ZoneRules.UTC
  pure (now.format "uuuu-MM-dd'T'HH:mm:ss.SSSSSS'Z'")

/-- What a path text names, as something to look at. -/
def place (text : String) : IO.FS.DirEntry := ⟨text, ""⟩

/-- The bytes of the regular files below a directory. -/
partial def usedBytes (directory : String) : IO Nat := do
  let mut total := 0
  for entry in ← (place directory).root.readDir do
    let found ← entry.path.symlinkMetadata
    match found.type with
    | .dir => total := total + (← usedBytes entry.path.toString)
    | .file => total := total + found.byteSize.toNat
    | _ => pure ()
  pure total

/-- The texts of the paths a path leads through, the longest first. -/
def above (path : String) : List String :=
  (OsPath.ofText path).above.map OsPath.text

/-- Makes a directory; nothing is wrong if it is there. -/
def makeOne (path : String) : IO (Except OsError Unit) := do
  match ← caught (IO.FS.createDir path) with
  | .ok () => pure (.ok ())
  | .error cause =>
    if ← (place path).root.isDir then pure (.ok ()) else pure (.error cause)

/-- Makes the first directory listed. Where its own directory is missing, the rest of the list is
made before it. -/
def makeAll : List String → IO (Except OsError Unit)
  | [] => pure (.ok ())
  | path :: rest => do
    match ← makeOne path with
    | .error .notFound =>
      match ← makeAll rest with
      | .ok () => makeOne path
      | .error cause => pure (.error cause)
    | made => pure made

/-- Makes a directory, with those it lies in. The empty path needs none. -/
def makeDirectory (path : String) : IO (Except OsError Unit) :=
  if path = "" then pure (.ok ()) else makeAll (path :: above path)

/-- Makes a log file, empty, with its directories. -/
def openLog (name : String) : IO (Except OsError IO.FS.Handle) := do
  match ← makeAll (above name) with
  | .ok () => caught (IO.FS.Handle.mk name .write)
  | .error cause => pure (.error cause)

/-- The machine the program runs on. `logFile` holds the log file once it is open. -/
def host (logFile : IO.Ref (Option IO.FS.Handle)) : Host IO where
  readConfig := caught (IO.FS.readBinFile "config.toml")
  environment := do
    let path ← IO.getEnv "NIMBUS_STORAGE_PATH"
    let writers ← IO.getEnv "NIMBUS_MAX_CONCURRENT_WRITERS"
    pure ⟨path.map String.toUTF8, writers.map String.toUTF8⟩
  openLog name := do
    match ← openLog name with
    | .error cause => pure (.error cause)
    | .ok file =>
      logFile.set (some file)
      pure (.ok ())
  makeBase base := makeDirectory base
  usedBytes base := caught (usedBytes base)
  say coloured line := do
    let stamp ← timeStamp
    IO.println (line.render stamp coloured)
    if let some file := ← logFile.get then
      file.putStrLn (line.render stamp false)
      file.flush
  complain text := IO.eprintln text

end Machine

end ResumableUpload

/-- Starts the program; its exit code. -/
def main : IO UInt32 := do
  let logFile ← IO.mkRef none
  (ResumableUpload.Machine.host logFile).start
