import ResumableUpload.Config.Sources
import ResumableUpload.Launch.Log
import ResumableUpload.Quota
import ResumableUpload.WriteSlots

/-
  Start — what the program does when it is started

  The program reads its configuration, sets up its log, makes the base
  directory of its storage and says how much of the dedicated space is taken.
  What it needs from its surroundings is a `Host`; so the same steps run on the
  operating system and on a `Disk`.

  What is held:
    1. `Host` — reading, making, saying.
    2. `configure`, `setUpLog`, `prepare`, `startWith` — the steps; `start` — all of
       them, and the exit code.
-/

namespace ResumableUpload

/-- What a program needs from its surroundings. -/
structure Host (m : Type → Type) where
  /-- Reads the configuration file. -/
  readConfig : m FileText
  environment : m Environment
  /-- Makes the log file, empty, with its directories; lines said later go there too. -/
  openLog : String → m (Except OsError Unit)
  /-- Makes a directory, with those above it. -/
  makeBase : String → m (Except OsError Unit)
  /-- The bytes of all files below a directory. -/
  usedBytes : String → m (Except OsError Nat)
  /-- Says a line, coloured on the console or not. -/
  say : Bool → LogLine → m Unit
  /-- Writes a line to the error output. -/
  complain : String → m Unit

namespace Host

variable {m : Type → Type} [Monad m]

/-- The configuration, or the default one where it cannot be had. -/
def configure (h : Host m) : m Config := do
  match Config.loadWith (← h.readConfig) (← h.environment) with
  | .ok c => pure c
  | .error e =>
    h.complain ("Failed to load config.toml: " ++ e.message)
    h.complain "Using default configuration."
    pure {}

/-- Sets up the log; where its file cannot be made, only the console is left. -/
def setUpLog (h : Host m) (c : LoggingConfig) : m LogSetup := do
  let threshold := Level.ofName c.level
  -- no file named: the console alone, as it was asked for, without colours
  if c.file = "" then pure ⟨threshold, false⟩
  else match ← h.openLog c.file with
    | .ok () => pure ⟨threshold, false⟩
    | .error cause =>
      h.complain ("Failed to initialize logging: " ++ (Error.io cause).message)
      pure ⟨threshold, true⟩

/-- Says a line if the set-up admits it. -/
def log (h : Host m) (s : LogSetup) (level : Level) (text : String) : m Unit :=
  if s.admits ⟨level, text⟩ then h.say s.coloured ⟨level, text⟩ else pure ()

/-- Checks the configuration and makes the base directory. -/
def prepare (h : Host m) (c : Config) : m (Except Error Unit) := do
  match c.validate with
  | .error e => pure (.error e)
  | .ok () => pure ((← h.makeBase c.storage.path).mapError .io)

/-- What is said of the storage. -/
def storageLine (c : Config) : String :=
  "Storage at " ++ c.storage.path ++ " (max "
    ++ toString (WriteSlots.ofCount c.upload.maxConcurrentWriters).ceiling
    ++ " concurrent writers, max upload " ++ toString c.storage.maxUploadSizeMb ++ " MB)"

/-- What is said of the quota. -/
def quotaLine (q : QuotaReport) : String :=
  "Quota: " ++ toString q.used ++ " bytes used, " ++ toString q.available
    ++ " bytes available of " ++ toString q.dedicated

/-- Starts the program under a configuration; its exit code. -/
def startWith (h : Host m) (c : Config) : m UInt32 := do
  let s ← h.setUpLog c.logging
  h.log s .info "Nimbus - personal cloud file store"
  match ← h.prepare c with
  | .error e =>
    h.log s .error ("Failed to start upload engine: " ++ e.message)
    pure 1
  | .ok () =>
    h.log s .info (storageLine c)
    match ← h.usedBytes c.storage.path with
    | .ok used => h.log s .info (quotaLine ⟨used, 0, c.storage.dedicatedSpaceBytes⟩)
    | .error cause =>
      h.log s .error ("Failed to read storage usage: " ++ (Error.io cause).message)
    pure 0

/-- Starts the program; its exit code. -/
def start (h : Host m) : m UInt32 := do
  h.startWith (← h.configure)

end Host

end ResumableUpload
