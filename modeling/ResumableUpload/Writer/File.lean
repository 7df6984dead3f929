import ResumableUpload.Disk.Operations

/-
  Positional writes to an open file

  A file takes a payload whole or refuses it; one operation of the disk writes a
  burst of it at most. The bytes of successful writes are counted per handle.

  ── ASSUMED ──────────────────────────────────────────────────────────────────
  A file that is sought takes all bursts of a payload: no write to it is short, and
  none fails for want of space or for a broken device. Those failures are
  `DiskFault`s, and `Delivery.fail` says which bytes of the payload they leave in
  the file. A target that takes less than it is offered is `Target`.

  Correspondence (writer ↔ library): `write_at` ↔ `writeAt`; `bytes_written` ↔
  `bytesWritten`.
-/

namespace ResumableUpload

/-- A file written at positions through one handle. -/
structure FileWriter where
  file : OpenFile
  /-- The bytes of all writes that succeeded. -/
  bytesWritten : Nat
  deriving DecidableEq, Repr

namespace FileWriter

/-- The most bytes that one operation of the disk writes. -/
def burst : Nat := 2 * 1024 * 1024

theorem burst_pos : 0 < burst := by decide

/-- The handle after a write of `len` bytes. -/
def count (w : FileWriter) (len : Nat) : FileWriter := { w with bytesWritten := w.bytesWritten + len }

/-- Writes `bytes` at `position`. -/
def writeAt (w : FileWriter) (d : Disk) (position : Nat) (bytes : Bytes) :
    Except OsError (Disk × FileWriter) :=
  match Disk.seek position with
  | .error cause => .error cause
  | .ok () => .ok (d.place w.file position bytes, w.count bytes.size)

end FileWriter

end ResumableUpload
