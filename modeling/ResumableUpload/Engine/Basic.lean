import ResumableUpload.Config.Basic
import ResumableUpload.Event.Feed
import ResumableUpload.Notice
import ResumableUpload.Quota
import ResumableUpload.WriteSlots

/-
  Engine — uploads, the disk they go to, and what is told about them

  The engine is one value. A call takes it and gives the next one; a call that
  is refused gives none, so nothing changes.

  What is held:
    1. `Engine`, `Engine.new`, `Engine.ofConfig`.
    2. Registration: `init`, `initWithin`.
    3. Removal: `remove`, `discard`.
    4. `quotaReport`, and the figures of the registry.

  ── ASSUMED ──────────────────────────────────────────────────────────────────
  The calls here never pause, so nothing happens while one of them runs; the
  registry is locked for each look at it and for each change. Sums of declared
  sizes are exact numbers; `initWithinWords` is `initWithin` in words.

  Correspondence (engine ↔ library):
    `init_upload`, `init_upload_within`      ↔ `init`, `initWithin`
    `remove_upload`, `discard_upload`        ↔ `remove`, `discard`
    `quota_report`, `may_start_writing`      ↔ `quotaReport`, `mayStartWriting`
    an event that is sent, a line of the log ↔ `emit`, `note`
-/

namespace ResumableUpload

/-- Uploads, the disk they go to, and what is told about them. -/
structure Engine where
  storage : Storage
  disk : Disk
  registry : Registry
  slots : WriteSlots
  /-- The greatest size an upload may declare. -/
  maxUploadSize : Nat
  /-- The events for subscribers. -/
  feed : Feed
  /-- The notices written, the oldest first. -/
  journal : List Notice

namespace Engine

/-- An engine without uploads. -/
def new (disk : Disk) (storage : Storage) (writers maxUploadSize eventCapacity : Nat) : Engine where
  storage := storage
  disk := disk
  registry := .empty
  slots := .ofCount writers
  maxUploadSize := maxUploadSize
  feed := .ofCapacity eventCapacity
  journal := []

/-- The engine a configuration describes. The base directory of its storage is made. -/
def ofConfig (disk : Disk) (c : Config) : Disk × Except Error Engine :=
  match c.validate with
  | .error e => (disk, .error e)
  | .ok () =>
    match Storage.create disk c.storage.path with
    | (disk, .error e) => (disk, .error e)
    | (disk, .ok storage) =>
      (disk, .ok (new disk storage c.upload.maxConcurrentWriters c.storage.maxUploadSizeBytes
        c.upload.eventCapacity))

/-- The engine with an event sent. -/
def emit (e : Engine) (event : Event) : Engine := { e with feed := e.feed.send event }

/-- The engine with a notice written. -/
def note (e : Engine) (notice : Notice) : Engine := { e with journal := e.journal ++ [notice] }

/-- The engine with the record at `path` changed. -/
def modify (e : Engine) (path : String) (change : Record → Record)
    (keeps : ∀ r, (change r).path = r.path := by intro r; exact .trans rfl rfl) : Engine :=
  { e with registry := e.registry.modify path change keeps }

/-! ## Registration -/

/-- Refuses what is no storage path, and sizes above the limit. -/
def checkNew (e : Engine) (path : String) (size : Nat) : Except UploadError Unit :=
  match Storage.resolve path with
  | .error _ => .error (.invalidPath path)
  | .ok _ => if e.maxUploadSize < size then .error (.tooLarge size e.maxUploadSize) else .ok ()

/-- An upload of no bytes is complete as soon as it is registered. -/
def announceIfEmpty (e : Engine) (t : Ticket) : Engine :=
  if t.size = 0 then (e.note (.emptyCompleted t.path)).emit (.completed t.path 0) else e

/-- Registers an upload. -/
def init (e : Engine) (path : String) (size : Nat) (owner : Int) (clientPath : String) :
    Except UploadError (Engine × Ticket) := do
  e.checkNew path size
  let (registry, ticket) ← e.registry.register path size owner clientPath
  let e := { e with registry }.note (.initialized path size owner)
  .ok (e.announceIfEmpty ticket, ticket)

/-- Registers an upload if the dedicated space can hold it beside those registered. -/
def initWithin (e : Engine) (quota : Quota) (path : String) (size : Nat) (owner : Int)
    (clientPath : String) : Except Error (Engine × Ticket) := do
  (e.checkNew path size).mapError .upload
  let used ← quota.usedBytes e.disk
  let report : QuotaReport := ⟨used, e.registry.reservedBytes, quota.dedicatedBytes⟩
  (report.check size).mapError .upload
  let (registry, ticket) ← (e.registry.register path size owner clientPath).mapError .upload
  let e := { e with registry }.note (.initializedWithinQuota path size owner)
  .ok (e.announceIfEmpty ticket, ticket)

/-! ## Removal -/

/-- Forgets the upload at `path`; without one, nothing happens. -/
def remove (e : Engine) (path : String) : Engine :=
  match e.registry.find? path with
  | none => e
  | some r =>
    ({ e with registry := e.registry.remove path }.note (.removed path r.saved r.completed)).emit
      (.removed path)

/-- Forgets the upload at `path` and deletes its file; whether there was a file. -/
def discard (e : Engine) (path : String) : Engine × Except Error Bool :=
  let e := e.remove path
  let (disk, deleted) := e.storage.delete e.disk path
  ({ e with disk }, deleted)

/-! ## Figures -/

/-- The figures of a quota, with the uploads registered. -/
def quotaReport (e : Engine) (quota : Quota) : Except Error QuotaReport :=
  QuotaReport.collect e.disk quota e.registry.reservedBytes

/-- Whether one more upload could start writing. -/
def mayStartWriting (e : Engine) : Bool := e.slots.mayStart e.registry

end Engine

end ResumableUpload
