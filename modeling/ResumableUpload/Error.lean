import ResumableUpload.OsError

/-
  Error — what a call can fail with

  `UploadError` covers the upload calls, `Error` adds storage, configuration
  and the operating system. Causes are data; the wording is in the `message`
  functions alone.
-/

namespace ResumableUpload

/-- Why an upload call failed. -/
inductive UploadError where
  /-- The path already names a registered upload. -/
  | alreadyActive (path : String)
  /-- The path names no registered upload. -/
  | unknownUpload (path : String)
  /-- A fragment did not reach the disk. -/
  | writeFailure (path : String) (position len : Nat) (source : OsError)
  /-- A fragment reaches past the declared size. -/
  | outOfBounds (path : String) (position len size : Nat)
  /-- The declared size is above the limit. -/
  | tooLarge (size limit : Nat)
  /-- The path is no storage path. -/
  | invalidPath (path : String)
  /-- The dedicated space cannot hold the upload. -/
  | quotaExceeded (requested available : Nat)
  deriving DecidableEq, Repr

/-- The text of the failure. -/
def UploadError.message : UploadError → String
  | alreadyActive path => "upload already active for " ++ path
  | unknownUpload path => "no active upload for " ++ path
  | writeFailure path position len source =>
    "write of " ++ toString len ++ " bytes at " ++ toString position ++ " failed for " ++ path
      ++ ": " ++ source.message
  | outOfBounds path position len size =>
    "fragment at " ++ toString position ++ " (+" ++ toString len ++ ") exceeds size "
      ++ toString size ++ " of " ++ path
  | tooLarge size limit =>
    "upload of " ++ toString size ++ " bytes exceeds the " ++ toString limit ++ " byte limit"
  | invalidPath path => "invalid storage path: " ++ path
  | quotaExceeded requested available =>
    "quota exceeded: " ++ toString requested ++ " bytes requested, " ++ toString available
      ++ " available"

/-- What made a value unacceptable. -/
inductive Invalid where
  /-- A storage path of no characters. -/
  | emptyPath
  /-- A storage path that starts at the root, at `.`, or steps up. -/
  | traversal (path : String)
  /-- A configuration that lets nobody write. -/
  | noWriters
  /-- A configuration that lets no byte be uploaded. -/
  | noUploadSize
  /-- A reason known by its text only. -/
  | other (text : String)
  deriving DecidableEq, Repr

/-- The text of the reason. -/
def Invalid.message : Invalid → String
  | emptyPath => "empty storage path"
  | traversal path => "path traversal not allowed: " ++ path
  | noWriters => "upload.max_concurrent_writers must be at least 1"
  | noUploadSize => "storage.max_upload_size_mb must be at least 1"
  | other text => text

/-- Why a count written in decimal was refused. -/
inductive CountFault where
  | notADigit
  | tooLarge
  deriving DecidableEq, Repr

/-- The text of the reason. -/
def CountFault.message : CountFault → String
  | notADigit => "invalid digit found in string"
  | tooLarge => "number too large to fit in target type"

/-- What is wrong with a configuration source. -/
inductive ConfigFault where
  /-- The text is not the configuration's TOML. -/
  | unreadable
  /-- The writer count of the environment is no count. -/
  | writerCount (fault : CountFault)
  /-- A fault known by its text only. -/
  | other (text : String)
  deriving DecidableEq, Repr

/-- The text of the fault. -/
def ConfigFault.message : ConfigFault → String
  | unreadable => "parse error"
  | writerCount fault => "NIMBUS_MAX_CONCURRENT_WRITERS: " ++ fault.message
  | other text => text

/-- Why a call failed. -/
inductive Error where
  /-- The operating system refused. -/
  | io (cause : OsError)
  /-- A value was unacceptable. -/
  | validation (reason : Invalid)
  /-- Something asked for by name is missing. -/
  | notFound (what : String)
  /-- A configuration source is at fault. -/
  | config (fault : ConfigFault)
  /-- An upload call failed. -/
  | upload (cause : UploadError)
  deriving DecidableEq, Repr

/-- The text of the failure; a failed upload call speaks for itself. -/
def Error.message : Error → String
  | io cause => "I/O error: " ++ cause.message
  | validation reason => "validation error: " ++ reason.message
  | notFound what => what ++ " not found"
  | config fault => "configuration error: " ++ fault.message
  | upload cause => cause.message

end ResumableUpload
