import ResumableUpload.Config.Basic
import ResumableUpload.Hex
import ResumableUpload.Notice

/-
  Log lines — what the program says of itself

  A line has a time stamp, a level and a text. On the console it may be
  coloured. Levels below the configured one are not said. A text may hold what
  somebody chose for a path, so characters that a terminal acts on are spelt
  out, in the log file as on the console.

  What is held:
    1. `Level.ofName` — the level a configuration names; unknown names mean
       `info`.
    2. `spellControls` — a text that no terminal acts on.
    3. `LogLine.render`.
-/

namespace ResumableUpload

/-- White space, as it is trimmed off names: the characters of the class `White_Space`. -/
def isWhiteSpace (c : Char) : Bool :=
  let n := c.toNat
  (9 ≤ n && n ≤ 13) || n = 0x20 || n = 0x85 || n = 0xA0 || n = 0x1680 || (0x2000 ≤ n && n ≤ 0x200A)
    || n = 0x2028 || n = 0x2029 || n = 0x202F || n = 0x205F || n = 0x3000

/-- A text without the white space around it. -/
def trimmed (cs : List Char) : List Char :=
  ((cs.dropWhile isWhiteSpace).reverse.dropWhile isWhiteSpace).reverse

/-- The level a name stands for. Names are compared without their case; no letter outside ASCII is
the capital of one in a level's name. -/
def Level.ofName (name : String) : Level :=
  let key := String.ofList ((trimmed name.toList).map Char.toLower)
  if key = "trace" then .trace
  else if key = "debug" then .debug
  else if key = "warn" ∨ key = "warning" then .warn
  else if key = "error" then .error
  else .info

/-- The colour of a level on the console. -/
def Level.colour : Level → String
  | trace => "35"
  | debug => "34"
  | info => "32"
  | warn => "33"
  | error => "31"

/-- A level's name, five characters wide. -/
def Level.column (l : Level) : String := if l.label.length < 5 then " " ++ l.label else l.label

/-- The characters that stand for `c` in a line. Bell, backspace, form feed, escape and delete are
spelt out, and so are the controls beyond ASCII; blanks and line breaks stay as they are. -/
def spellControl (c : Char) : List Char :=
  let n := c.toNat
  if n = 7 ∨ n = 8 ∨ n = 12 ∨ n = 27 ∨ n = 127 then ['\\', 'x'] ++ Hex.pair n
  else if 0x80 ≤ n ∧ n ≤ 0x9F then ['\\', 'u', '\x7b'] ++ Hex.pair n ++ ['\x7d']
  else [c]

/-- A text with the characters spelt out that a terminal acts on. -/
def spellControls (text : String) : String := String.ofList (text.toList.flatMap spellControl)

/-- A line of the log. -/
structure LogLine where
  level : Level
  text : String
  deriving DecidableEq, Repr

namespace LogLine

/-- A text between an escape sequence and its end. -/
def styled (code text : String) : String := "\x1b[" ++ code ++ "m" ++ text ++ "\x1b[0m"

/-- The line as it is written. -/
def render (stamp : String) (coloured : Bool) (line : LogLine) : String :=
  let text := spellControls line.text
  if coloured then
    styled "2" stamp ++ " " ++ styled line.level.colour line.level.column ++ " "
      ++ styled "2" "nimbus" ++ styled "2" ":" ++ " " ++ text
  else stamp ++ " " ++ line.level.column ++ " nimbus: " ++ text

end LogLine

/-- What is said where. -/
structure LogSetup where
  /-- Levels below this are not said. -/
  threshold : Level
  /-- Whether the console shows colours. -/
  coloured : Bool
  deriving DecidableEq, Repr

/-- Whether a line is said. -/
def LogSetup.admits (s : LogSetup) (line : LogLine) : Bool := s.threshold.rank ≤ line.level.rank

end ResumableUpload
