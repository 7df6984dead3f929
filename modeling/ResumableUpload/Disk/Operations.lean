import ResumableUpload.Disk.Basic

/-
  Disk operations — what programs ask of a directory tree

  What is held:
    1. `find`, `isFile`, `isDirectory` — what a path leads to.
    2. `makeDirectory`; `makeDirectories` makes every directory of a path that
       is missing. It may stop half way; what it made stays.
    3. `openForWriting`, `seek` and `place` — a file opened without truncation,
       and writes through the handle. A handle whose file was deleted goes on
       taking writes; nobody can read them, so they leave the disk as it is.
    4. `replaceContent`, `remove`, `removeDirectory`, `removeTree`, `makeLink`.
    5. `sizeOf`, `contentOf?`, `usedBelow`, `usedUnder`, `filesBelow`. A length
       and a sum of lengths are exact numbers; `Words` has the sum in words.

  ── ASSUMED ──────────────────────────────────────────────────────────────────
    - An operation takes effect at one moment, and the disk has no end: none of
      them fails for want of space, for a device that is gone or for a right
      that is missing. `Delivery.fail` has the failures that are not told by
      what lies on the disk, and what they leave behind.
    - No file is made to be read: a handle is for writing, at its cursor.

  Correspondence (system call ↔ operation):
    `mkdir`, one after another               ↔ `makeDirectory`, `makeDirectories`
    `open` for writing, with `O_CREAT`,
      without `O_TRUNC`                      ↔ `openForWriting`
    `lseek`, `write`                         ↔ `seek`, `place`
    `unlink`                                 ↔ `remove`
    `stat`                                   ↔ `find`, `isFile`, `sizeOf`
    `readdir`, directory by directory        ↔ `usedUnder`
-/

namespace ResumableUpload

/-- A file held open: where it was found, and the number it was created under. -/
structure OpenFile where
  loc : Location
  serial : Nat
  deriving DecidableEq, Repr

namespace Disk

/-- What a path leads to, links followed. -/
def find (d : Disk) (p : OsPath) : Except OsError (Location × Entry) :=
  match d.locate true p with
  | .error cause => .error cause
  | .ok (.absent _) => .error .notFound
  | .ok (.present loc entry) => .ok (loc, entry)

/-- Whether a path leads to a regular file. -/
def isFile (d : Disk) (p : OsPath) : Bool :=
  match d.find p with
  | .ok (_, .file _ _) => true
  | _ => false

/-- Whether a path leads to a directory. -/
def isDirectory (d : Disk) (p : OsPath) : Bool :=
  match d.find p with
  | .ok (_, .directory) => true
  | _ => false

/-- Makes one directory. The directory it lies in has to be there. -/
def makeDirectory (d : Disk) (p : OsPath) : Except OsError Disk :=
  match d.locateName p with
  | .error cause => .error cause
  | .ok (.present _ _) => .error .exists
  | .ok (.absent loc) => .ok (d.set loc .directory)

/-- A directory could not be made; nothing is wrong if it is there. -/
def unlessThere (d : Disk) (p : OsPath) (cause : OsError) : Disk × Except OsError Unit :=
  if d.isDirectory p then (d, .ok ()) else (d, .error cause)

/-- Makes the first directory listed. Where its own directory is missing, the rest of the list is
made before it. -/
def makeAll (d : Disk) : List OsPath → Disk × Except OsError Unit
  | [] => (d, .ok ())
  | p :: rest =>
    match d.makeDirectory p with
    | .ok d => (d, .ok ())
    | .error .notFound =>
      match d.makeAll rest with
      | (d, .error cause) => (d, .error cause)
      | (d, .ok ()) =>
        match d.makeDirectory p with
        | .ok d => (d, .ok ())
        | .error cause => d.unlessThere p cause
    | .error cause => d.unlessThere p cause

/-- Makes every directory of a path that is missing. The empty path needs none. -/
def makeDirectories (d : Disk) (p : OsPath) : Disk × Except OsError Unit :=
  if p = .ofText "" then (d, .ok ()) else d.makeAll (p :: p.above)

/-- Makes every directory that is missing on the way to what a path names. -/
def makeParents (d : Disk) (p : OsPath) : Disk × Except OsError Unit := d.makeAll p.above

/-- Where a file that may have to be created lies, seen from the directory `cur`. A slash at the end,
also of a link's target, asks for a directory. -/
def locateFileFrom (d : Disk) (hops : Nat) (cur : Location) (p : OsPath) : Except OsError Place :=
  if p.slashed then
    match d.walk true hops cur (p.steps.dropLast ++ ["."]) with
    | .ok _ => .error .isDirectory
    | .error cause => .error cause
  else match d.tread true cur p.steps with
    | .error cause => .error cause
    | .ok (.reached loc entry) => .ok (.present loc entry)
    | .ok (.free loc) => .ok (.absent loc)
    | .ok (.detour dir target rest) =>
      match hops with
      | 0 => .error .linkLoop
      | hops + 1 =>
        d.locateFileFrom hops (linkStart dir target) ⟨Path.pieces target ++ rest⟩

/-- Where a file that may have to be created lies. -/
def locateFile (d : Disk) (p : OsPath) : Except OsError Place :=
  match p.check with
  | .error cause => .error cause
  | .ok () => d.locateFileFrom maxLinks [] p

/-- Opens a file for writing, without truncation; a missing one is created empty. -/
def openForWriting (d : Disk) (p : OsPath) : Except OsError (Disk × OpenFile) :=
  match d.locateFile p with
  | .error cause => .error cause
  | .ok (.present loc (.file serial _)) => .ok (d, ⟨loc, serial⟩)
  | .ok (.present _ _) => .error .isDirectory
  | .ok (.absent loc) => .ok (d.addFile loc .empty, ⟨loc, d.nextSerial⟩)

/-- Puts the cursor of an open file at `position`, which has to be an offset. -/
def seek (position : Nat) : Except OsError Unit :=
  if offsetLimit ≤ position then .error .invalidArgument else .ok ()

/-- Lays `bytes` at `position` of an open file. -/
def place (d : Disk) (file : OpenFile) (position : Nat) (bytes : Bytes) : Disk :=
  match d.get? file.loc with
  | some (.file serial content) =>
    -- another serial number: the file that was opened is gone, and another took its name
    if serial = file.serial then d.set file.loc (.file serial (content.overlay position bytes)) else d
  | _ => d

theorem ne_nil_of_get? {d : Disk} {loc : Location} {serial : Nat} {content : Content}
    (h : d.get? loc = some (.file serial content)) : loc ≠ [] := by
  rintro rfl
  simp at h

theorem place_empty (d : Disk) (file : OpenFile) (position : Nat) : d.place file position #[] = d := by
  unfold place
  split
  · next serial content h =>
    split
    · rw [Content.overlay_empty, set_of_get? (ne_nil_of_get? h) h]
    · rfl
  · rfl

theorem place_append (d : Disk) (file : OpenFile) (position : Nat) (a b : Bytes) :
    (d.place file position a).place file (position + a.size) b = d.place file position (a ++ b) := by
  by_cases hfile : ∃ content, d.get? file.loc = some (.file file.serial content)
  · obtain ⟨content, h⟩ := hfile
    have hloc := ne_nil_of_get? h
    have hthere : (d.set file.loc (.file file.serial (content.overlay position a))).get? file.loc =
        some (.file file.serial (content.overlay position a)) := by simp [get?_set d hloc]
    simp [place, h, hthere, set_set, Content.overlay_append]
  · have hsame (position : Nat) (bytes : Bytes) : d.place file position bytes = d := by
      unfold place
      split
      · next serial content h => grind
      · rfl
    simp [hsame]

/-- Gives a file, created if it is missing, a new content. -/
def replaceContent (d : Disk) (p : OsPath) (content : Content) : Except OsError Disk :=
  match d.locateFile p with
  | .error cause => .error cause
  | .ok (.present loc (.file serial _)) => .ok (d.set loc (.file serial content))
  | .ok (.present _ _) => .error .isDirectory
  | .ok (.absent loc) => .ok (d.addFile loc content)

/-- Gives a file, created if it is missing, `size` zero bytes. A length that is no offset is refused,
and the file is left without bytes. -/
def replaceByZeros (d : Disk) (p : OsPath) (size : Nat) : Disk × Except OsError Unit :=
  if offsetLimit ≤ size then
    match d.replaceContent p .empty with
    | .error cause => (d, .error cause)
    | .ok d => (d, .error .invalidArgument)
  else match d.replaceContent p (.zeros size) with
    | .error cause => (d, .error cause)
    | .ok d => (d, .ok ())

/-- Removes a file or a link. -/
def remove (d : Disk) (p : OsPath) : Except OsError Disk :=
  match d.locate false p with
  | .error cause => .error cause
  | .ok (.absent _) => .error .notFound
  | .ok (.present _ .directory) => .error .isDirectory
  | .ok (.present loc _) => .ok (d.erase loc)

/-- Removes a directory that holds nothing. It goes by a name; `.` and `..` are none. -/
def removeDirectory (d : Disk) (p : OsPath) : Except OsError Disk :=
  match d.locateName p with
  | .error cause => .error cause
  | .ok (.absent _) => .error .notFound
  | .ok (.present loc .directory) =>
    if p.steps.getLast? = some "." then .error .invalidArgument
    else if p.steps.getLast? = some ".." then .error .notEmpty
    else .ok (d.erase loc)
  | .ok (.present _ _) => .error .notDirectory

/-- Removes a directory and all that lies below it, or a link. The directory is emptied first; its
path may have led through what it held, and then leads nowhere, and the directory stays. -/
def removeTree (d : Disk) (p : OsPath) : Disk × Except OsError Unit :=
  match d.locate false p with
  | .error cause => (d, .error cause)
  | .ok (.absent _) => (d, .error .notFound)
  | .ok (.present loc .directory) =>
    match (d.clear loc).removeDirectory p with
    | .ok d => (d, .ok ())
    | .error .notFound => (d.clear loc, .ok ())
    | .error cause => (d.clear loc, .error cause)
  | .ok (.present loc (.link _)) => (d.erase loc, .ok ())
  | .ok (.present _ (.file _ _)) => (d, .error .notDirectory)

/-- Puts a symbolic link where nothing is yet. A link stands for a path, so its target has text. -/
def makeLink (d : Disk) (p : OsPath) (target : String) : Except OsError Disk :=
  match (OsPath.ofText target).check with
  | .error cause => .error cause
  | .ok () =>
    if target = "" then .error .notFound
    else match d.locate false p with
      | .error cause => .error cause
      | .ok (.present _ _) => .error .exists
      | .ok (.absent loc) => .ok (d.set loc (.link target))

/-- The size of what a path leads to: the length of a file, and one block for a directory. -/
def sizeOf (d : Disk) (p : OsPath) : Except OsError Nat :=
  (d.find p).map fun found => found.2.shownSize

/-- What the file at a location holds. -/
def contentOf? (d : Disk) (loc : Location) : Option Content :=
  match d.get? loc with
  | some (.file _ content) => some content
  | _ => none

/-- The lengths of all regular files below a location, summed as exact numbers. -/
def usedBelow (d : Disk) (loc : Location) : Nat :=
  ((d.entries.filter fun e => loc.isPrefixOf e.1).map fun e => e.2.fileSize).foldr (· + ·) 0

/-- The directories below a location, by the names that lead there from it. -/
def directoriesBelow (d : Disk) (loc : Location) : List Location :=
  (d.entries.filter fun e => loc.isPrefixOf e.1 && e.2.isDirectory).map fun e => e.1.drop loc.length

/-- The bytes of all regular files below the directory a path leads to. The directories below it are
listed by their paths, so the count fails where one of them is too long. -/
def usedUnder (d : Disk) (p : OsPath) : Except OsError Nat :=
  match d.find p with
  | .error cause => .error cause
  | .ok (loc, .directory) =>
    if (d.directoriesBelow loc).any fun names => OsPath.maxBytes < (p.join names).bytes then
      .error .nameTooLong
    else .ok (d.usedBelow loc)
  | .ok _ => .error .notDirectory

/-- What lies below a location and is no directory, with the names that lead there from it. -/
def filesBelow (d : Disk) (loc : Location) : List (Location × Entry) :=
  (d.entries.filter fun e => loc.isPrefixOf e.1 && !e.2.isDirectory).map
    fun e => (e.1.drop loc.length, e.2)

end Disk

end ResumableUpload
