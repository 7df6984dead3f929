import ResumableUpload.Fragment.Basic
import ResumableUpload.Storage
import ResumableUpload.Writer.File

/-
  Delivery — how a fragment reaches its file

  A fragment reaches its file by operations of the disk, one after another: the
  directories above the file are made, the file is opened, its cursor is put at
  the position, and the bytes are written, a burst by an operation. A file that
  is open already is not opened again. The first operation that fails ends the
  delivery, and what the earlier ones did stays.

  What is held:
    1. `Delivery` — the operations that are left, told by the first of them.
    2. `advance` — one operation; `left_of_onward` says that fewer are left.
    3. `DiskFault`, `fail` — an operation that fails, and what it leaves behind:
       some of the directories, or some of the bytes. `effect` — what the next
       operation makes of the disk, if it goes its way or fails.
    4. `finish` — all operations that are left; `finish_eq` says that they are
       those of `advance`, in their order.

  ── ASSUMED ──────────────────────────────────────────────────────────────────
    - Each of the operations takes effect at one moment, the making of several
      directories and a whole burst too. Where one fails in between, `fail` has
      the part that was done.
    - The disk refuses what `advance` refuses: a path that leads nowhere, or to
      no file, and a position that is no offset. All other failures, a full disk
      among them, are `DiskFault`s, and may come at every operation.
    - The bytes reach the file with the operation that writes them; to flush
      them adds nothing. Where that fails, it is the last burst that fails, with
      all of it done.

  Correspondence: `write_fragment` ↔ `finish`; its `open_for_write` ↔
  `directories` and `opening`, its `write_at` ↔ `seeking` and `writing`.
-/

namespace ResumableUpload

/-- An operation of the disk fails. -/
structure DiskFault where
  cause : OsError
  /-- How much of the operation is done before: so many of the directories, the outer ones first, or so
  many of the bytes. -/
  done : Nat
  deriving DecidableEq, Repr

/-- The operations that are left until a fragment has reached its file, told by the first of them. -/
inductive Delivery where
  /-- The directories above the file are made. -/
  | directories
  /-- The file is opened. -/
  | opening
  /-- The cursor is put at the position. -/
  | seeking (writer : FileWriter)
  /-- The bytes behind the first `done` are written at the cursor. -/
  | writing (writer : FileWriter) (done : Nat)
  deriving DecidableEq, Repr

/-- Makes so many directories on the way to a file, the outer ones first. -/
def Storage.makeSome (s : Storage) (d : Disk) (path : String) (count : Nat) : Disk :=
  match resolve path with
  | .error _ => d
  | .ok names =>
    let above := (s.filePath names).above
    (d.makeAll (above.drop (above.length - count))).1

namespace Delivery

/-- A delivery of which nothing is done yet, through the file that is open if there is one. -/
def start : Option FileWriter → Delivery
  | none => directories
  | some w => seeking w

/-- The most operations that are left for `f`. -/
def left (f : Fragment) : Delivery → Nat
  | directories => 4 + (f.len - 1) / FileWriter.burst
  | opening => 3 + (f.len - 1) / FileWriter.burst
  | seeking _ => 2 + (f.len - 1) / FileWriter.burst
  | writing _ done => 1 + (f.len - done - 1) / FileWriter.burst

/-- The most operations that a delivery of `f` takes. -/
def most (f : Fragment) : Nat := directories.left f

/-- Where a delivery stands after an operation. -/
inductive Step where
  | onward (next : Delivery)
  /-- The last operation: the file that stays open, or the failure. -/
  | ended (result : Except OsError FileWriter)

/-- Why a file could not be opened, as a failure of the operating system. -/
def asOsError : Error → OsError
  | .io cause => cause
  | e => .other e.message

/-- Carries out one operation of the delivery of `f` to `path`. -/
def advance (s : Storage) (path : String) (f : Fragment) (d : Disk) : Delivery → Disk × Step
  | directories =>
    match s.makeWay d path with
    | (d, .error err) => (d, .ended (.error (asOsError err)))
    | (d, .ok ()) => (d, .onward opening)
  | opening =>
    match s.openFile d path with
    | (d, .error err) => (d, .ended (.error (asOsError err)))
    | (d, .ok file) => (d, .onward (seeking ⟨file, 0⟩))
  | seeking w =>
    match Disk.seek f.position with
    | .error cause => (d, .ended (.error cause))
    | .ok () =>
      -- to write no bytes takes no operation
      if f.isEmpty then (d, .ended (.ok (w.count f.len))) else (d, .onward (writing w 0))
  | writing w done =>
    let stop := done + FileWriter.burst
    let d := d.place w.file (f.position + done) (f.bytes.extract done stop)
    if f.len ≤ stop then (d, .ended (.ok (w.count f.len))) else (d, .onward (writing w stop))

/-- What the next operation leaves if it fails when so much of it is done. -/
def fail (s : Storage) (path : String) (f : Fragment) (count : Nat) (d : Disk) : Delivery → Disk
  | directories => s.makeSome d path count
  | writing w done =>
    d.place w.file (f.position + done) (f.bytes.extract done (done + min count FileWriter.burst))
  | _ => d

/-- What the next operation makes of the disk, if it goes its way or fails. -/
def effect (s : Storage) (path : String) (f : Fragment) (fault : Option DiskFault) (d : Disk)
    (x : Delivery) : Disk :=
  match fault with
  | none => (x.advance s path f d).1
  | some fault => x.fail s path f fault.done d

/-- Writes `f` to a file that is open. -/
def writeTo (f : Fragment) (d : Disk) (w : FileWriter) : Disk × Except OsError FileWriter :=
  match w.writeAt d f.position f.bytes with
  | .error cause => (d, .error cause)
  | .ok (d, w) => (d, .ok w)

/-- Writes `f` to a file that may have been opened for it. -/
def writeToOpened (f : Fragment) : Disk × Except Error OpenFile → Disk × Except OsError FileWriter
  | (d, .error err) => (d, .error (asOsError err))
  | (d, .ok file) => writeTo f d ⟨file, 0⟩

/-- Carries out all operations that are left of the delivery of `f` to `path`. -/
def finish (s : Storage) (path : String) (f : Fragment) (d : Disk) :
    Delivery → Disk × Except OsError FileWriter
  | directories => writeToOpened f (s.openForWrite d path)
  | opening => writeToOpened f (s.openFile d path)
  | seeking w => writeTo f d w
  | writing w done =>
    (d.place w.file (f.position + done) (f.bytes.extract done f.len), .ok (w.count f.len))

theorem left_writing {f : Fragment} {w : FileWriter} {done : Nat}
    (h : ¬ f.len ≤ done + FileWriter.burst) :
    (writing w (done + FileWriter.burst)).left f < (writing w done).left f := by
  have hmore : f.len - done - 1 = f.len - (done + FileWriter.burst) - 1 + FileWriter.burst := by
    omega
  rw [left, left, hmore, Nat.add_div_right _ FileWriter.burst_pos]
  exact Nat.add_lt_add_left (Nat.lt_succ_self _) _

/-- Each operation leaves fewer. -/
theorem left_of_onward {s : Storage} {path : String} {f : Fragment} {d d' : Disk}
    {x next : Delivery} (h : x.advance s path f d = (d', .onward next)) :
    next.left f < x.left f := by
  cases x with
  | directories =>
    simp only [advance] at h
    split at h <;> simp at h
    obtain ⟨-, rfl⟩ := h
    simp [left]
  | opening =>
    simp only [advance] at h
    split at h <;> simp at h
    obtain ⟨-, rfl⟩ := h
    simp [left]
  | seeking w =>
    simp only [advance] at h
    split at h
    · simp at h
    · split at h <;> simp at h
      obtain ⟨-, rfl⟩ := h
      simp [left]
  | writing w done =>
    simp only [advance] at h
    split at h <;> simp at h
    obtain ⟨-, rfl⟩ := h
    exact left_writing (by omega)

/-- To finish is to carry out one operation and to finish what it leaves. -/
theorem finish_eq (s : Storage) (path : String) (f : Fragment) (d : Disk) (x : Delivery) :
    x.finish s path f d =
      match x.advance s path f d with
      | (d, .onward next) => next.finish s path f d
      | (d, .ended result) => (d, result) := by
  cases x with
  | directories =>
    rcases h : s.makeWay d path with ⟨d', _ | _⟩ <;>
      simp [finish, advance, Storage.openForWrite, writeToOpened, h]
  | opening =>
    rcases h : s.openFile d path with ⟨d', _ | _⟩ <;> simp [finish, advance, writeToOpened, h]
  | seeking w =>
    rcases h : Disk.seek f.position with _ | _
    · simp [finish, advance, writeTo, FileWriter.writeAt, h]
    · cases hf : f.isEmpty with
      | true =>
        have hnone : f.bytes = #[] := by simpa [Fragment.isEmpty, Fragment.len] using hf
        simp [finish, advance, writeTo, FileWriter.writeAt, h, hf, hnone, Fragment.len,
          Disk.place_empty]
      | false => simp [finish, advance, writeTo, FileWriter.writeAt, h, hf, Fragment.len]
  | writing w done =>
    by_cases hlast : f.len ≤ done + FileWriter.burst
    · have hall : f.bytes.extract done (done + FileWriter.burst) = f.bytes.extract done f.len := by
        simp only [Fragment.len] at hlast ⊢
        exact Array.ext (by simp; omega) (by simp)
      simp [finish, advance, hlast, hall]
    · have hsize : (f.bytes.extract done (done + FileWriter.burst)).size = FileWriter.burst := by
        simp only [Fragment.len] at hlast
        simp
        omega
      have hjoin : f.bytes.extract done f.len =
          f.bytes.extract done (done + FileWriter.burst) ++
            f.bytes.extract (done + FileWriter.burst) f.len := by
        rw [Array.extract_append_extract]
        congr 1 <;> omega
      have hplace := Disk.place_append d w.file (f.position + done)
        (f.bytes.extract done (done + FileWriter.burst))
        (f.bytes.extract (done + FileWriter.burst) f.len)
      rw [hsize, ← hjoin] at hplace
      simp [finish, advance, hlast, ← hplace, Nat.add_assoc]

end Delivery

end ResumableUpload
