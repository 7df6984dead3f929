import ResumableUpload.Toml.Scalar
import ResumableUpload.Toml.Table

/-
  TOML grammar — values and statements

  What is held:
    1. `value` — a value. Its first argument is how deep arrays and inline
       tables may still lie in it.
    2. `statements` — the lines of a text: pairs and headers.
-/

namespace ResumableUpload.Toml

/-- A reader of values. -/
abbrev Reader := Rest → Option (Value × Rest)

/-- The items of an array after its opening bracket, at most `limit` of them. A comma stands between
two items and may stand after the last. -/
def items (item : Reader) (limit : Nat) (cs : Rest) : Option (List Value × Rest) :=
  match limit with
  | 0 => none
  | limit + 1 =>
    match skipBreaks false cs with
    | none => none
    | some (']' :: rest) => some ([], rest)
    | some rest =>
      match item rest with
      | none => none
      | some (value, rest) =>
        match skipBreaks false rest with
        | some (',' :: rest) => (items item limit rest).map fun (vs, rest) => (value :: vs, rest)
        | some (']' :: rest) => some ([value], rest)
        | _ => none

/-- A pair up to the end of its value. -/
def pair (item : Reader) (cs : Rest) : Option (Pair × Rest) :=
  match keyParts (depthLimit - 1) cs with
  | none => none
  | some (parts, rest) =>
    match rest, parts.getLast? with
    | '=' :: rest, some key =>
      (item (skipBlanks rest)).map fun (value, rest) => (⟨parts.dropLast, key, value⟩, rest)
    | _, _ => none

/-- The pairs of an inline table that is not empty, after its opening brace, at most `limit` of
them. A comma stands between two pairs. -/
def pairs (item : Reader) (limit : Nat) (cs : Rest) : Option (List Pair × Rest) :=
  match limit with
  | 0 => none
  | limit + 1 =>
    match pair item cs with
    | none => none
    | some (p, rest) =>
      match skipBlanks rest with
      | ',' :: rest => (pairs item limit rest).map fun (ps, rest) => (p :: ps, rest)
      | '\x7d' :: rest => some ([p], rest)
      | _ => none

/-- An inline table after its opening brace. -/
def inlineBody (item : Reader) (cs : Rest) : Option (Value × Rest) :=
  match skipBlanks cs with
  | '\x7d' :: rest => some (.table [], rest)
  | cs =>
    match pairs item (cs.length + 1) cs with
    | none => none
    | some (ps, rest) => (inlineTable ps).map fun table => (table, rest)

/-- A value that holds no other. -/
def scalar (cs : Rest) : Option (Value × Rest) :=
  match cs with
  | 't' :: 'r' :: 'u' :: 'e' :: rest => some (.boolean true, rest)
  | 'f' :: 'a' :: 'l' :: 's' :: 'e' :: rest => some (.boolean false, rest)
  | '"' :: _ => (string cs).map fun (text, rest) => (.string text, rest)
  | '\x27' :: _ => (string cs).map fun (text, rest) => (.string text, rest)
  | _ => (dateTime cs).or ((float cs).or (integer cs))

/-- A value in which arrays and inline tables lie at most `depth` deep. -/
def value (depth : Nat) (cs : Rest) : Option (Value × Rest) :=
  match depth, cs with
  | depth + 1, '[' :: rest =>
    (items (fun cs => value depth cs) (rest.length + 1) rest).map fun (vs, rest) => (.array vs, rest)
  | depth + 1, '\x7b' :: rest => inlineBody (fun cs => value depth cs) rest
  | _, cs => scalar cs

/-- A line of a text. -/
inductive Statement where
  | pair (p : Pair)
  /-- The header of a table. -/
  | table (path : List String) (key : String)
  /-- The header of an element of an array of tables. -/
  | element (path : List String) (key : String)

/-- The key of a header, up to its closing bracket. -/
def headerKey (cs : Rest) : Option ((List String × String) × Rest) :=
  match keyParts (depthLimit - 1) cs with
  | some (parts, ']' :: rest) => parts.getLast?.map fun key => ((parts.dropLast, key), rest)
  | _ => none

/-- One statement, with the line that it ends. -/
def statement (cs : Rest) : Option (Statement × Rest) :=
  match cs with
  | '[' :: '[' :: rest =>
    match headerKey rest with
    | some ((path, key), ']' :: rest) => (endOfLine rest).map fun rest => (.element path key, rest)
    | _ => none
  | '[' :: rest =>
    match headerKey rest with
    | some ((path, key), rest) => (endOfLine rest).map fun rest => (.table path key, rest)
    | none => none
  | _ =>
    match pair (value (depthLimit - 1)) cs with
    | some (p, rest) => (endOfLine rest).map fun rest => (.pair p, rest)
    | none => none

/-- The statements of a text of at most `limit` lines. -/
def statements (limit : Nat) (cs : Rest) : Option (List Statement) :=
  match limit with
  | 0 => none
  | limit + 1 =>
    match skipBlanks cs with
    | [] => some []
    | cs =>
      match endOfLine cs with
      -- an empty line, or one that is a comment
      | some rest => statements limit rest
      | none =>
        match statement cs with
        | none => none
        | some (s, rest) => (statements limit rest).map fun ss => s :: ss

end ResumableUpload.Toml
