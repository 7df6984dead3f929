import ResumableUpload.Error

/-
  Configuration — what the program can be told

  Three sections: where files go, how uploads are written, and what is logged.
  Sizes are given in mebibytes; in bytes they stop at the greatest 64-bit
  number.
-/

namespace ResumableUpload

/-- The greatest number of 64 bits. -/
def maxWord : Nat := Nat.pow 2 64 - 1

/-- Mebibytes in bytes, `maxWord` at most. -/
def mebibytes (n : Nat) : Nat := min (n * 1048576) maxWord

/-- Where files go, and how much of them. -/
structure StorageConfig where
  path : String := "data/files"
  maxUploadSizeMb : Nat := 1024
  dedicatedSpaceMb : Nat := 10240
  deriving DecidableEq, Repr

/-- The largest upload, in bytes. -/
def StorageConfig.maxUploadSizeBytes (c : StorageConfig) : Nat := mebibytes c.maxUploadSizeMb

/-- The dedicated space, in bytes. -/
def StorageConfig.dedicatedSpaceBytes (c : StorageConfig) : Nat := mebibytes c.dedicatedSpaceMb

/-- How uploads are written, and how many events are kept. -/
structure UploadConfig where
  maxConcurrentWriters : Nat := 1
  eventCapacity : Nat := 64
  deriving DecidableEq, Repr

/-- What is logged, and to which file; no name, no file. -/
structure LoggingConfig where
  level : String := "info"
  file : String := "logs/nimbus.log"
  deriving DecidableEq, Repr

/-- What the program is told. -/
structure Config where
  storage : StorageConfig := {}
  upload : UploadConfig := {}
  logging : LoggingConfig := {}
  deriving DecidableEq, Repr

instance : Inhabited Config := ⟨{}⟩

/-- Refuses a configuration under which nothing could be uploaded. -/
def Config.validate (c : Config) : Except Error Unit :=
  if c.upload.maxConcurrentWriters = 0 then .error (.validation .noWriters)
  else if c.storage.maxUploadSizeMb = 0 then .error (.validation .noUploadSize)
  else .ok ()

end ResumableUpload
