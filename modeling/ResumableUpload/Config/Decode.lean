import ResumableUpload.Config.Basic
import ResumableUpload.Toml.Document

/-
  Reading a configuration from TOML

  Each section and each key may be missing and then has its default; keys that
  mean nothing are ignored. A section may be a table, or an array that gives
  the keys in their order; a date names no key.

  What is held:
    1. `ConfigSection` — the keys of a section, however it is written.
    2. `Config.ofToml?`, `Config.parse`.
-/

namespace ResumableUpload

/-- A section of a configuration: what is given for the key at a place in the section's order. -/
abbrev ConfigSection := Nat → String → Option Toml.Value

namespace ConfigSection

/-- A section as it is written; `none` if it is written as something that has no keys. -/
def ofValue? : Toml.Value → Option ConfigSection
  | .table members => some fun _ key => members.lookup key
  | .array items => some fun place _ => items[place]?
  | .dateTime _ => some fun _ _ => none
  | _ => none

/-- A section that is not written. -/
def missing : ConfigSection := fun _ _ => none

/-- The section `name` of a configuration. -/
def named (top : List (String × Toml.Value)) (name : String) : Option ConfigSection :=
  match top.lookup name with
  | none => some missing
  | some value => ofValue? value

/-- A text given for a key, or its default. -/
def text (s : ConfigSection) (place : Nat) (key : String) (default : String) : Option String :=
  match s place key with
  | none => some default
  | some (.string text) => some text
  | some _ => none

/-- A count given for a key, or its default. -/
def count (s : ConfigSection) (place : Nat) (key : String) (default : Nat) : Option Nat :=
  match s place key with
  | none => some default
  | some (.integer n) => if 0 ≤ n then some n.toNat else none
  | some _ => none

end ConfigSection

/-- The storage section. -/
def StorageConfig.ofSection? (s : ConfigSection) : Option StorageConfig := do
  let initial : StorageConfig := {}
  let path ← s.text 0 "path" initial.path
  let maxUploadSizeMb ← s.count 1 "max_upload_size_mb" initial.maxUploadSizeMb
  let dedicatedSpaceMb ← s.count 2 "dedicated_space_mb" initial.dedicatedSpaceMb
  some { path, maxUploadSizeMb, dedicatedSpaceMb }

/-- The upload section. -/
def UploadConfig.ofSection? (s : ConfigSection) : Option UploadConfig := do
  let initial : UploadConfig := {}
  let maxConcurrentWriters ← s.count 0 "max_concurrent_writers" initial.maxConcurrentWriters
  let eventCapacity ← s.count 1 "event_capacity" initial.eventCapacity
  some { maxConcurrentWriters, eventCapacity }

/-- The logging section. -/
def LoggingConfig.ofSection? (s : ConfigSection) : Option LoggingConfig := do
  let initial : LoggingConfig := {}
  let level ← s.text 0 "level" initial.level
  let file ← s.text 1 "file" initial.file
  some { level, file }

/-- The configuration that the members of a top table make. -/
def Config.ofToml? (top : List (String × Toml.Value)) : Option Config := do
  let storage ← StorageConfig.ofSection? (← ConfigSection.named top "storage")
  let upload ← UploadConfig.ofSection? (← ConfigSection.named top "upload")
  let logging ← LoggingConfig.ofSection? (← ConfigSection.named top "logging")
  some { storage, upload, logging }

/-- The configuration that a text makes. -/
def Config.parse (text : String) : Except Error Config :=
  match (Toml.parse text).bind Config.ofToml? with
  | some c => .ok c
  | none => .error (.config .unreadable)

end ResumableUpload
