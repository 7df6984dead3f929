import ResumableUpload.Config.Decode

/-
  Sources of a configuration — a file and two variables

  A configuration is read from a file; then variables of the environment may
  override the storage path and the writer count. A variable that is empty or
  no UTF-8 overrides nothing.

  What is held:
    1. `readCount` — a count in decimal, within 64 bits.
    2. `Environment`, `Config.override`.
    3. `Config.load`, `Config.loadWith`.
-/

namespace ResumableUpload

/-- The bytes of a file, or why they could not be read. -/
abbrev FileText := Except OsError ByteArray

/-- Reads on from the number read so far. A character that is no digit is refused before a number
that has grown too large. -/
def readDigits (n : Nat) : List Char → Except CountFault Nat
  | [] => .ok n
  | c :: rest =>
    if '0' ≤ c ∧ c ≤ '9' then
      let n := n * 10 + (c.toNat - 48)
      if maxWord < n then .error .tooLarge else readDigits n rest
    else .error .notADigit

/-- A count in decimal: a plus sign may stand before its digits, of which there is one at least. -/
def readCount (text : String) : Except CountFault Nat :=
  match text.toList with
  | '+' :: c :: rest => readDigits 0 (c :: rest)
  | [] => .error .notADigit
  | cs => readDigits 0 cs

/-- The variables that override a configuration. -/
structure Environment where
  storagePath : Option ByteArray := none
  maxConcurrentWriters : Option ByteArray := none

/-- What a variable says: its text, unless that is empty or no text. -/
def Environment.text? (bytes : Option ByteArray) : Option String :=
  (bytes.bind String.fromUTF8?).filter (· ≠ "")

/-- The configuration with the storage path overridden. -/
def Config.overridePath (c : Config) (env : Environment) : Config :=
  match Environment.text? env.storagePath with
  | some path => { c with storage := { c.storage with path } }
  | none => c

/-- The configuration with the writer count overridden. -/
def Config.overrideWriters (c : Config) (env : Environment) : Except Error Config :=
  match Environment.text? env.maxConcurrentWriters with
  | none => .ok c
  | some text =>
    match readCount text with
    | .ok n => .ok { c with upload := { c.upload with maxConcurrentWriters := n } }
    | .error fault => .error (.config (.writerCount fault))

/-- The configuration with the variables applied. -/
def Config.override (c : Config) (env : Environment) : Except Error Config :=
  (c.overridePath env).overrideWriters env

/-- The configuration of a file. -/
def Config.load (file : FileText) : Except Error Config :=
  match file with
  | .error cause => .error (.io cause)
  | .ok bytes =>
    match String.fromUTF8? bytes with
    | none => .error (.io .notUtf8)
    | some text => Config.parse text

/-- The configuration of a file, with the variables applied. -/
def Config.loadWith (file : FileText) (env : Environment) : Except Error Config :=
  match Config.load file with
  | .error e => .error e
  | .ok c => c.override env

end ResumableUpload
