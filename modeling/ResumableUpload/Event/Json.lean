import ResumableUpload.Event.Basic
import ResumableUpload.Hex

/-
  Event texts — an event as one line of JSON

  An event is an object without blanks. Its first member, `type`, names the
  kind; the others follow in a fixed order. In strings the quote, the backslash
  and all control characters below U+0020 are escaped, and nothing else is, so
  a text holds no line break.

  What is held:
    1. `Json.escape`, `Json.quote` — strings.
    2. `Event.toJson`.

  The program leaves the escapes to a library; those held here are the ones that
  it documents. Correspondence: `to_json` of an event ↔ `Event.toJson`.
-/

namespace ResumableUpload

namespace Json

/-- The characters that stand for `c` in a string. -/
def escapeChar (c : Char) : List Char :=
  if c = '"' then ['\\', '"']
  else if c = '\\' then ['\\', '\\']
  else if c.toNat = 8 then ['\\', 'b']
  else if c.toNat = 9 then ['\\', 't']
  else if c.toNat = 10 then ['\\', 'n']
  else if c.toNat = 12 then ['\\', 'f']
  else if c.toNat = 13 then ['\\', 'r']
  else if c.toNat < 32 then ['\\', 'u', '0', '0'] ++ Hex.pair c.toNat
  else [c]

/-- The characters that stand for those of a text. -/
def escape (text : List Char) : List Char := text.flatMap escapeChar

/-- A text as a string. -/
def quote (text : String) : String :=
  "\"" ++ String.ofList (escape text.toList) ++ "\""

/-- A member of an object. -/
def member (key value : String) : String := quote key ++ ":" ++ value

/-- An object of members. -/
def object (members : List String) : String :=
  "\x7b" ++ ",".intercalate members ++ "\x7d"

end Json

open Json in
/-- The event as one line of JSON. -/
def Event.toJson : Event → String
  | completed path size =>
    object [member "type" (quote "completed"), member "path" (quote path),
      member "size" (toString size)]
  | failed path position len message =>
    object [member "type" (quote "failed"), member "path" (quote path),
      member "position" (toString position), member "len" (toString len),
      member "message" (quote message)]
  | removed path =>
    object [member "type" (quote "removed"), member "path" (quote path)]

end ResumableUpload
