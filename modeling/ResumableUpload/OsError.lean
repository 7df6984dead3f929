/-
  OsError — why a file operation failed

  Each cause is one constructor; the wording is in `OsError.message` alone.
-/

namespace ResumableUpload

/-- Why the file system refused an operation. -/
inductive OsError where
  /-- A name on the way, or the last one, is missing. -/
  | notFound
  /-- The name is taken by something that is no directory. -/
  | exists
  /-- A name on the way is no directory. -/
  | notDirectory
  /-- The destination is a directory. -/
  | isDirectory
  /-- The offset is beyond what a file may have. -/
  | invalidArgument
  /-- A name is longer than `Disk.maxNameBytes`, or a path than `OsPath.maxBytes`. -/
  | nameTooLong
  /-- A directory that should go holds something. -/
  | notEmpty
  /-- A path leads through more symbolic links than `Disk.maxLinks`. -/
  | linkLoop
  /-- A path holds a NUL character. -/
  | nulInPath
  /-- A file read as text is not UTF-8. -/
  | notUtf8
  /-- A failure known by its text only. -/
  | other (text : String)
  deriving DecidableEq, Repr

/-- The text of the failure. -/
def OsError.message : OsError → String
  | notFound => "No such file or directory (os error 2)"
  | .exists => "File exists (os error 17)"
  | notDirectory => "Not a directory (os error 20)"
  | isDirectory => "Is a directory (os error 21)"
  | invalidArgument => "Invalid argument (os error 22)"
  | nameTooLong => "File name too long (os error 36)"
  | notEmpty => "Directory not empty (os error 39)"
  | linkLoop => "Too many levels of symbolic links (os error 40)"
  | nulInPath => "file name contained an unexpected NUL byte"
  | notUtf8 => "stream did not contain valid UTF-8"
  | other text => text

end ResumableUpload
