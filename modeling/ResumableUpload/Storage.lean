import ResumableUpload.Disk.Operations
import ResumableUpload.Error

/-
  Storage — files below a base directory

  A storage maps storage paths (`photos/2024/beach.jpg`) to files below its
  base. Only paths made of names alone are storage paths, so no path leads out
  of the base; spellings that differ in empty pieces or in pieces `.` after the
  first name the same file.

  What is held:
    1. `resolve` — the names a storage path stands for.
    2. `makeWay` and `openFile`, the two operations of `openForWrite`.
    3. `delete`, `hasFile`, `fileSize`, `usedBytes`.

  ── ASSUMED ──────────────────────────────────────────────────────────────────
  Each of them but `openForWrite` is one look at the disk, or one change of it;
  nothing else happens on the way. `usedBytes` is the exact number of bytes, of
  whatever size; `usedWord?` counts them in words.

  Correspondence (storage ↔ library):
    `resolve`                                ↔ `resolve`
    `open_for_write`                         ↔ `openForWrite`
    `delete`, `exists`, `file_size`          ↔ `delete`, `hasFile`, `fileSize`
    `used_bytes`                             ↔ `usedBytes`, `usedWord?`
-/

namespace ResumableUpload

/-- Files below a base directory. -/
structure Storage where
  /-- The base directory, as it was given. -/
  base : String
  deriving DecidableEq, Repr

namespace Storage

/-- The base as the operating system is given it. -/
def basePath (s : Storage) : OsPath := OsPath.ofText s.base

/-- The names a storage path stands for. -/
def resolve (path : String) : Except Error Location :=
  if path = "" then .error (.validation .emptyPath)
  else match Path.names? path with
    | none => .error (.validation (.traversal path))
    | some names => .ok names

/-- The file that `names` stand for. -/
def filePath (s : Storage) (names : Location) : OsPath := s.basePath.join names

/-- A storage at `base`, whose directory is made if it is missing. -/
def create (d : Disk) (base : String) : Disk × Except Error Storage :=
  match d.makeDirectories (OsPath.ofText base) with
  | (d, .ok ()) => (d, .ok ⟨base⟩)
  | (d, .error cause) => (d, .error (.io cause))

/-- Makes the directories on the way to a file, those that are missing. -/
def makeWay (s : Storage) (d : Disk) (path : String) : Disk × Except Error Unit :=
  match resolve path with
  | .error e => (d, .error e)
  | .ok names =>
    match d.makeParents (s.filePath names) with
    | (d, .error cause) => (d, .error (.io cause))
    | (d, .ok ()) => (d, .ok ())

/-- Opens a file whose directories are there. A missing file is made; what a file holds stays. -/
def openFile (s : Storage) (d : Disk) (path : String) : Disk × Except Error OpenFile :=
  match resolve path with
  | .error e => (d, .error e)
  | .ok names =>
    match d.openForWriting (s.filePath names) with
    | .error cause => (d, .error (.io cause))
    | .ok (d, file) => (d, .ok file)

/-- Opens a file for positional writes. Missing directories and the file itself are made; what the
file holds stays. -/
def openForWrite (s : Storage) (d : Disk) (path : String) : Disk × Except Error OpenFile :=
  match s.makeWay d path with
  | (d, .error e) => (d, .error e)
  | (d, .ok ()) => s.openFile d path

/-- Deletes a file; whether there was one to delete. -/
def delete (s : Storage) (d : Disk) (path : String) : Disk × Except Error Bool :=
  match resolve path with
  | .error e => (d, .error e)
  | .ok names =>
    match d.remove (s.filePath names) with
    | .ok d => (d, .ok true)
    | .error .notFound => (d, .ok false)
    | .error cause => (d, .error (.io cause))

/-- Whether a path names a regular file. -/
def hasFile (s : Storage) (d : Disk) (path : String) : Bool :=
  match resolve path with
  | .error _ => false
  | .ok names => d.isFile (s.filePath names)

/-- The length of a file; a directory is no fault, and has the size it is shown with. -/
def fileSize (s : Storage) (d : Disk) (path : String) : Except Error Nat :=
  match resolve path with
  | .error e => .error e
  | .ok names =>
    match d.sizeOf (s.filePath names) with
    | .ok size => .ok size
    | .error .notFound => .error (.notFound ("File: " ++ path))
    | .error cause => .error (.io cause)

/-- The bytes all regular files below the base take, as an exact number. Links count for nothing. -/
def usedBytes (s : Storage) (d : Disk) : Except Error Nat :=
  (d.usedUnder s.basePath).mapError .io

end Storage

end ResumableUpload
