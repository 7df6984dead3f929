import ResumableUpload.Event.Basic
import ResumableUpload.Hex

/-
  Reader — JSON texts read back, as RFC 8259 has them

  A reader takes a text character by character. It stands between tokens, in a
  number or one of the three words, or in a string; behind that is what the
  parser holds: the arrays and objects that are open and what may come next. So
  to read one text after another is to read the two in one go, and what a text
  does can be told of each of its pieces.

  In a string no control character may stand as it is, and a character beyond
  U+FFFF may be written as two escapes. Numbers are kept as decimals, whatever
  their length. Members of an object are kept in their order, those of one name
  too.

  What is held:
    1. `Json.Value`, with numbers as `Json.Decimal`.
    2. `Json.State` — the parser, over structural characters and scalars.
    3. `Json.Reader` — the reader of characters; `Json.read?` reads a text.
    4. `Event.value`, `Event.ofValue?` — an event as a value, and the event a
       value stands for.
-/

namespace ResumableUpload

namespace Json

/-! ## Values -/

/-- `digits` times ten to the power of `exponent`, negated if `negative`. -/
structure Decimal where
  negative : Bool
  digits : Nat
  exponent : Int
  deriving DecidableEq, Repr

/-- A whole number. -/
def Decimal.ofNat (n : Nat) : Decimal := ⟨false, n, 0⟩

/-- What a text stands for. -/
inductive Value where
  | null
  | bool (b : Bool)
  | number (n : Decimal)
  | string (text : String)
  | array (items : List Value)
  | object (members : List (String × Value))
  deriving Repr

/-! ## Numbers and words -/

/-- The digits at the front of a text, one at least, and what follows them. -/
def digits? (cs : List Char) : Option (List Char × List Char) :=
  if cs.takeWhile Char.isDigit = [] then none
  else some (cs.takeWhile Char.isDigit, cs.dropWhile Char.isDigit)

/-- As `digits?`; a zero may only stand alone. -/
def whole? (cs : List Char) : Option (List Char × List Char) :=
  (digits? cs).filter fun (ds, _) => ds = ['0'] ∨ ds.head? ≠ some '0'

/-- The digits behind a point, if there is one. -/
def fraction? : List Char → Option (List Char × List Char)
  | '.' :: rest => digits? rest
  | cs => some ([], cs)

/-- The number digits make, with nothing behind them. -/
def magnitude? (cs : List Char) : Option Nat :=
  match digits? cs with
  | some (ds, []) => some (Nat.ofDigitChars 10 ds 0)
  | _ => none

/-- The exponent that ends a number, zero if none is written. -/
def exponent? : List Char → Option Int
  | [] => some 0
  | e :: rest =>
    if e = 'e' ∨ e = 'E' then
      match rest with
      | '-' :: rest => (magnitude? rest).map fun n => -(n : Int)
      | '+' :: rest => (magnitude? rest).map Int.ofNat
      | rest => (magnitude? rest).map Int.ofNat
    else none

/-- The number that characters without a sign stand for. -/
def unsigned? (negative : Bool) (cs : List Char) : Option Decimal := do
  let (whole, cs) ← whole? cs
  let (fraction, cs) ← fraction? cs
  let exponent ← exponent? cs
  return ⟨negative, Nat.ofDigitChars 10 (whole ++ fraction) 0, exponent - fraction.length⟩

/-- The number that characters stand for. -/
def Decimal.ofChars? : List Char → Option Decimal
  | '-' :: rest => unsigned? true rest
  | cs => unsigned? false cs

/-- The scalar that is written without quotes. -/
def scalar? (cs : List Char) : Option Value :=
  if cs = ['n', 'u', 'l', 'l'] then some .null
  else if cs = ['t', 'r', 'u', 'e'] then some (.bool true)
  else if cs = ['f', 'a', 'l', 's', 'e'] then some (.bool false)
  else (Decimal.ofChars? cs).map .number

/-! ## The parser -/

/-- An array or an object with a value of it to come; what was read of it before is held with the
latest first. -/
inductive Open where
  | array (read : List Value)
  | object (read : List (String × Value)) (name : String)
  deriving Repr

/-- What may come next, and the arrays and objects around it, the innermost first. -/
inductive State where
  /-- A value. -/
  | value (around : List Open)
  /-- The first item of an array, or its end. -/
  | firstItem (around : List Open)
  /-- The first name of an object, or its end. -/
  | firstName (around : List Open)
  /-- A name of an object. -/
  | nextName (read : List (String × Value)) (around : List Open)
  /-- The colon behind a name. -/
  | colon (read : List (String × Value)) (name : String) (around : List Open)
  /-- A comma, or the end of an array. -/
  | afterItem (read : List Value) (around : List Open)
  /-- A comma, or the end of an object. -/
  | afterMember (read : List (String × Value)) (around : List Open)
  /-- Nothing. -/
  | done (v : Value)
  deriving Repr

namespace State

/-- Where a value has been read. -/
def after (v : Value) : List Open → State
  | [] => done v
  | .array read :: around => afterItem (v :: read) around
  | .object read name :: around => afterMember ((name, v) :: read) around

/-- Takes the mark an array or an object begins with. -/
def opened (c : Char) (around : List Open) : Option State :=
  if c = '[' then some (firstItem around)
  else if c = '\x7b' then some (firstName around)
  else none

/-- Takes a structural character. -/
def mark (c : Char) : State → Option State
  | value around => opened c around
  | firstItem around =>
    if c = ']' then some (after (.array []) around) else opened c (.array [] :: around)
  | firstName around => if c = '\x7d' then some (after (.object []) around) else none
  | nextName _ _ => none
  | colon read name around => if c = ':' then some (value (.object read name :: around)) else none
  | afterItem read around =>
    if c = ',' then some (value (.array read :: around))
    else if c = ']' then some (after (.array read.reverse) around)
    else none
  | afterMember read around =>
    if c = ',' then some (nextName read around)
    else if c = '\x7d' then some (after (.object read.reverse) around)
    else none
  | done _ => none

/-- Takes a scalar: a value, or the name of a member. -/
def scalar (v : Value) : State → Option State
  | value around => some (after v around)
  | firstItem around => some (after v (.array [] :: around))
  | firstName around => named [] around
  | nextName read around => named read around
  | _ => none
where
  /-- Takes the name of a member. -/
  named (read : List (String × Value)) (around : List Open) : Option State :=
    match v with
    | .string text => some (colon read text around)
    | _ => none

end State

/-! ## The reader -/

/-- Where the reading of a string stands. -/
inductive Inside where
  /-- Among its characters. -/
  | plain
  /-- After a backslash. -/
  | escape
  /-- Before `left` hexadecimal digits; those read make `value`. -/
  | unit (left value : Nat)
  deriving DecidableEq, Repr

/-- Where the reading stands; what was read is held with the latest first. -/
inductive Lexeme where
  /-- Between tokens. -/
  | between
  /-- In a number or a word. -/
  | bare (read : List Char)
  /-- In a string; `half` is the first of two units, the second of which has to follow. -/
  | quoted (inside : Inside) (half : Option Nat) (read : List Char)
  deriving DecidableEq, Repr

/-- What a backslash and one letter stand for. -/
def shortEscape? (c : Char) : Option Char :=
  if c = '"' ∨ c = '\\' ∨ c = '/' then some c
  else if c = 'b' then some '\x08'
  else if c = 'f' then some '\x0c'
  else if c = 'n' then some '\n'
  else if c = 'r' then some '\r'
  else if c = 't' then some '\t'
  else none

/-- Takes a unit of 16 bits: a character, or a half of one. -/
def takeUnit (unit : Nat) (half : Option Nat) (read : List Char) : Option Lexeme :=
  match half with
  | none =>
    if 0xD800 ≤ unit ∧ unit < 0xDC00 then some (.quoted .plain (some unit) read)
    else (Hex.character? unit).map fun c => .quoted .plain none (c :: read)
  | some high =>
    if 0xDC00 ≤ unit ∧ unit < 0xE000 then
      (Hex.character? (0x10000 + (high - 0xD800) * 0x400 + (unit - 0xDC00))).map fun c =>
        .quoted .plain none (c :: read)
    else none

/-- Takes a character that belongs to a string and does not close it. -/
def takeQuoted (c : Char) (inside : Inside) (half : Option Nat) (read : List Char) :
    Option Lexeme :=
  match inside with
  | .plain =>
    if c = '\\' then some (.quoted .escape half read)
    else if half = none ∧ 0x20 ≤ c.toNat then some (.quoted .plain none (c :: read))
    else none
  | .escape =>
    if c = 'u' then some (.quoted (.unit 4 0) half read)
    else if half = none then (shortEscape? c).map fun d => .quoted .plain none (d :: read)
    else none
  | .unit left value =>
    (Hex.value? c).bind fun d =>
      let value := value * 16 + d
      if left ≤ 1 then takeUnit value half read else some (.quoted (.unit (left - 1) value) half read)

/-- What a reader holds: where it stands, and what it has read. -/
structure Reader where
  lexeme : Lexeme
  state : State
  deriving Repr

/-- Whether a character may stand between tokens. -/
def isBlank (c : Char) : Bool := c = ' ' || c = '\t' || c = '\n' || c = '\r'

/-- Whether a character is a token of its own. -/
def isMark (c : Char) : Bool :=
  c = '[' || c = ']' || c = '\x7b' || c = '\x7d' || c = ':' || c = ','

namespace Reader

/-- The reader before a text. -/
def start : Reader := ⟨.between, .value []⟩

/-- Takes the first character of a token, a mark or a blank. -/
def begin (c : Char) (s : State) : Option Reader :=
  if isBlank c then some ⟨.between, s⟩
  else if isMark c then (s.mark c).map (⟨.between, ·⟩)
  else if c = '"' then some ⟨.quoted .plain none [], s⟩
  else some ⟨.bare [c], s⟩

/-- The parser where the reader stands at the end of a token, with the token taken. -/
def settled (r : Reader) : Option State :=
  match r.lexeme with
  | .between => some r.state
  | .bare read => (scalar? read.reverse).bind r.state.scalar
  | .quoted _ _ _ => none

/-- Takes a character. -/
def next (r : Reader) (c : Char) : Option Reader :=
  match r.lexeme with
  | .between => begin c r.state
  | .bare read =>
    if isBlank c || isMark c || c = '"' then r.settled.bind (begin c)
    else some ⟨.bare (c :: read), r.state⟩
  | .quoted inside half read =>
    if inside = .plain ∧ half = none ∧ c = '"' then
      (r.state.scalar (.string (String.ofList read.reverse))).map (⟨.between, ·⟩)
    else (takeQuoted c inside half read).map (⟨·, r.state⟩)

/-- Takes characters. -/
def run (r : Reader) (cs : List Char) : Option Reader := cs.foldlM next r

end Reader

/-- What a text stands for. -/
def read? (text : String) : Option Value :=
  match (Reader.start.run text.toList).bind Reader.settled with
  | some (.done v) => some v
  | _ => none

/-! ## Members -/

namespace Value

/-- The member of an object with a given name; where there are several, the last. -/
def get? (v : Value) (name : String) : Option Value :=
  match v with
  | object members => members.reverse.lookup name
  | _ => none

/-- The member of an object with a given name, if it is a string. -/
def text? (v : Value) (name : String) : Option String :=
  match v.get? name with
  | some (string text) => some text
  | _ => none

/-- The member of an object with a given name, if it is a number that is written as a whole one. -/
def count? (v : Value) (name : String) : Option Nat :=
  match v.get? name with
  | some (number ⟨false, n, 0⟩) => some n
  | _ => none

end Value

end Json

namespace Event

open Json in
/-- The event as a value. -/
def value : Event → Value
  | completed path size =>
    .object [("type", .string "completed"), ("path", .string path), ("size", .number (.ofNat size))]
  | failed path position len message =>
    .object [("type", .string "failed"), ("path", .string path),
      ("position", .number (.ofNat position)), ("len", .number (.ofNat len)),
      ("message", .string message)]
  | removed path => .object [("type", .string "removed"), ("path", .string path)]

/-- The event a value stands for. -/
def ofValue? (v : Json.Value) : Option Event := do
  let kind ← v.text? "type"
  let path ← v.text? "path"
  if kind = "completed" then
    return completed path (← v.count? "size")
  else if kind = "failed" then
    return failed path (← v.count? "position") (← v.count? "len") (← v.text? "message")
  else if kind = "removed" then
    return removed path
  else none

/-- The event a text stands for. -/
def ofJson? (text : String) : Option Event := (Json.read? text).bind ofValue?

end Event

end ResumableUpload
