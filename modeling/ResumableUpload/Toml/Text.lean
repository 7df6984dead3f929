import ResumableUpload.Hex

/-
  TOML text — blanks, comments, line ends, strings and keys

  All readers work on the characters that are left: each takes what it reads
  off the front and returns the rest, or `none` where the text is malformed.
  Strings are read one character at a time by a small automaton, so every
  reader here ends where the text ends.

  What is held:
    1. `skipBlanks`, `skipBreaks`, `endOfLine`.
    2. `basicBody`, `multiBasicBody`, `literalBody`, `multiLiteralBody`, and
       `string`, which picks one of them.
    3. `simpleKey` and `dottedKey`.
-/

namespace ResumableUpload.Toml

/-- The rest of a text. -/
abbrev Rest := List Char

/-- Space or tab. -/
def isBlank (c : Char) : Bool := c = ' ' || c = '\t'

/-- A character that may stand in a comment: no control character but the tab. -/
def isPlain (c : Char) : Bool := c = '\t' || (0x20 ≤ c.toNat && c.toNat ≠ 0x7F)

/-- The quote that opens and closes literal strings. -/
def apostrophe : Char := '\x27'

/-- Skips blanks. -/
def skipBlanks (cs : Rest) : Rest := cs.dropWhile isBlank

/-- Takes a line break off the front. -/
def newline? : Rest → Option Rest
  | '\n' :: rest => some rest
  | '\r' :: '\n' :: rest => some rest
  | _ => none

/-- Skips a comment, if one is next, up to its line's end. -/
def skipComment : Rest → Rest
  | '#' :: rest => rest.dropWhile isPlain
  | cs => cs

/-- What may follow a statement: blanks, a comment, and the end of the line or of the text. -/
def endOfLine (cs : Rest) : Option Rest :=
  match skipComment (skipBlanks cs) with
  | [] => some []
  | rest => newline? rest

/-- Skips blanks, comments and line breaks. -/
def skipBreaks (inComment : Bool) : Rest → Option Rest
  | [] => some []
  | '\r' :: '\n' :: rest => skipBreaks false rest
  | c :: rest =>
    if c = '\n' then skipBreaks false rest
    else if inComment then (if isPlain c then skipBreaks true rest else none)
    else if isBlank c then skipBreaks false rest
    else if c = '#' then skipBreaks true rest
    else some (c :: rest)

/-! ## Escapes -/

/-- What a backslash and one letter stand for. -/
def shortEscape? (c : Char) : Option Char :=
  if c = 'b' then some '\x08'
  else if c = 't' then some '\t'
  else if c = 'n' then some '\n'
  else if c = 'f' then some '\x0c'
  else if c = 'r' then some '\r'
  else if c = '"' then some '"'
  else if c = '\\' then some '\\'
  else none

/-- How far the reading of an escape has come, after its backslash. -/
inductive Escape where
  /-- The letter is next. -/
  | letter
  /-- `left` hexadecimal digits are still to come; those read make `value`. -/
  | hex (left value : Nat)
  deriving DecidableEq, Repr

/-- Where the next character takes an escape. -/
inductive Escape.Step where
  | done (c : Char)
  | more (e : Escape)
  | malformed

/-- Takes the next character of an escape. -/
def Escape.next (c : Char) : Escape → Escape.Step
  | letter =>
    match shortEscape? c with
    | some d => .done d
    | none =>
      if c = 'u' then .more (.hex 4 0) else if c = 'U' then .more (.hex 8 0) else .malformed
  | hex left value =>
    match Hex.value? c with
    | none => .malformed
    | some d =>
      let value := value * 16 + d
      if left ≤ 1 then
        match Hex.character? value with
        | some c => .done c
        | none => .malformed
      else .more (.hex (left - 1) value)

/-! ## Strings -/

/-- The rest of a basic string after its opening quote: its characters and what follows it. The
characters read so far are in `read`, the latest first. -/
def basicBody (escape : Option Escape) (read : List Char) : Rest → Option (List Char × Rest)
  | [] => none
  | c :: rest =>
    match escape with
    | some e =>
      match e.next c with
      | .done d => basicBody none (d :: read) rest
      | .more e => basicBody (some e) read rest
      | .malformed => none
    | none =>
      if c = '"' then some (read.reverse, rest)
      else if c = '\\' then basicBody (some .letter) read rest
      else if isPlain c then basicBody none (c :: read) rest
      else none

/-- The rest of a literal string after its opening quote. -/
def literalBody (read : List Char) : Rest → Option (List Char × Rest)
  | [] => none
  | c :: rest =>
    if c = apostrophe then some (read.reverse, rest)
    else if isPlain c then literalBody (c :: read) rest
    else none

/-- Where the reading of a string of several lines stands. -/
inductive Multi where
  /-- Among its characters. -/
  | plain
  /-- After `count` quotes in a row. -/
  | quotes (count : Nat)
  /-- After a carriage return, which a line feed has to follow. -/
  | carriage
  | escape (e : Escape)
  /-- After a backslash and blanks; a line break has to follow. -/
  | gap
  /-- As `carriage`, in a gap. -/
  | gapCarriage
  /-- After a backslash and a line break: blanks and line breaks are skipped. -/
  | trim
  /-- As `carriage`, while skipping. -/
  | trimCarriage
  deriving DecidableEq, Repr

/-- Takes a character that no quote, escape or break is pending before: the new state, and the
characters it adds, the latest first. -/
def Multi.plainStep (quote : Char) (escapes : Bool) (c : Char) : Option (Multi × List Char) :=
  if c = quote then some (.quotes 1, [])
  else if escapes && c = '\\' then some (.escape .letter, [])
  else if c = '\n' then some (.plain, ['\n'])
  else if c = '\r' then some (.carriage, [])
  else if isPlain c then some (.plain, [c])
  else none

/-- Takes a character: the new state and the characters it adds, the latest first. -/
def Multi.next (quote : Char) (escapes : Bool) (c : Char) : Multi → Option (Multi × List Char)
  | plain => plainStep quote escapes c
  | quotes count =>
    if c = quote then some (.quotes (count + 1), [])
    else (plainStep quote escapes c).map fun (state, added) =>
      (state, added ++ List.replicate count quote)
  | carriage => if c = '\n' then some (.plain, ['\n']) else none
  | escape e =>
    if e = .letter ∧ isBlank c then some (.gap, [])
    else if e = .letter ∧ c = '\n' then some (.trim, [])
    else if e = .letter ∧ c = '\r' then some (.gapCarriage, [])
    else match e.next c with
      | .done d => some (.plain, [d])
      | .more e => some (.escape e, [])
      | .malformed => none
  | gap =>
    if isBlank c then some (.gap, [])
    else if c = '\n' then some (.trim, [])
    else if c = '\r' then some (.gapCarriage, [])
    else none
  | gapCarriage => if c = '\n' then some (.trim, []) else none
  | trim =>
    if isBlank c || c = '\n' then some (.trim, [])
    else if c = '\r' then some (.trimCarriage, [])
    else plainStep quote escapes c
  | trimCarriage => if c = '\n' then some (.trim, []) else none

/-- How many of the quotes just read belong to the string, where those after them close it: three
quotes close, and up to two more before them are part of the string. -/
def Multi.closing? (quote : Char) (next : Option Char) : Multi → Option Nat
  | quotes count => if 3 ≤ count && (count = 5 || next ≠ some quote) then some (count - 3) else none
  | _ => none

/-- The rest of a string of several lines after its opening quotes. -/
def multiBody (quote : Char) (escapes : Bool) (state : Multi) (read : List Char) :
    Rest → Option (List Char × Rest)
  | [] => (state.closing? quote none).map fun n => ((List.replicate n quote ++ read).reverse, [])
  | c :: rest =>
    match state.closing? quote (some c) with
    | some n => some ((List.replicate n quote ++ read).reverse, c :: rest)
    | none =>
      match state.next quote escapes c with
      | none => none
      | some (state, added) => multiBody quote escapes state (added ++ read) rest

/-- The text after an optional line break, which is not part of the string it opens. -/
def skipFirstBreak (cs : Rest) : Rest := (newline? cs).getD cs

/-- A string in any of its four forms. -/
def string : Rest → Option (String × Rest)
  | '"' :: '"' :: '"' :: rest => asText (multiBody '"' true .plain [] (skipFirstBreak rest))
  | '"' :: rest => asText (basicBody none [] rest)
  | '\x27' :: '\x27' :: '\x27' :: rest =>
    asText (multiBody apostrophe false .plain [] (skipFirstBreak rest))
  | '\x27' :: rest => asText (literalBody [] rest)
  | _ => none
where
  /-- The characters read, as a text. -/
  asText : Option (List Char × Rest) → Option (String × Rest) :=
    Option.map fun (read, rest) => (String.ofList read, rest)

/-! ## Keys -/

/-- A character of a bare key. -/
def isBare (c : Char) : Bool := c.isAlphanum || c = '_' || c = '-'

/-- One part of a key: a bare one, or a string of one line. -/
def simpleKey (cs : Rest) : Option (String × Rest) :=
  match cs with
  | '"' :: rest => string.asText (basicBody none [] rest)
  | '\x27' :: rest => string.asText (literalBody [] rest)
  | _ =>
    let bare := cs.takeWhile isBare
    if bare.isEmpty then none else some (String.ofList bare, cs.dropWhile isBare)

/-- A key of at most `limit` parts with dots between them; blanks around a part are skipped. -/
def keyParts (limit : Nat) (cs : Rest) : Option (List String × Rest) :=
  match limit with
  | 0 => none
  | limit + 1 =>
    match simpleKey (skipBlanks cs) with
    | none => none
    | some (part, rest) =>
      match skipBlanks rest with
      | '.' :: rest => (keyParts limit rest).map fun (parts, rest) => (part :: parts, rest)
      | rest => some ([part], rest)

end ResumableUpload.Toml
