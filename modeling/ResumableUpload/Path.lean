/-
  Path — path texts, split at slashes

  A path text is split at `/`. Empty pieces vanish, and so does a piece `.`
  that is not the first; what is left is the list of parts. The first part may
  be the root (a leading slash) or the current directory (a leading `.`); any
  part may be a step up. All other parts are names, in which nothing is special.

  What is held:
    1. `pieces` and `parts` — the split and its reading.
    2. `displayName` — the name a path is shown under.

  Correspondence: the components of a path ↔ `parts`; `display_name` ↔
  `displayName`.
-/

namespace ResumableUpload

/-- A place in a directory tree: the names from the top down. -/
abbrev Location := List String

namespace Path

/-- The characters between slashes; there is always at least one piece. -/
def splitSlash : List Char → List (List Char)
  | [] => [[]]
  | c :: cs =>
    if c = '/' then [] :: splitSlash cs
    else match splitSlash cs with
      | [] => [[c]]
      | piece :: rest => (c :: piece) :: rest

/-- The pieces of a path text, the empty ones included. -/
def pieces (path : String) : List String :=
  (splitSlash path.toList).map String.ofList

/-- One part of a path. -/
inductive Part where
  /-- The top of the tree. -/
  | root
  /-- The directory the path starts in, written out. -/
  | here
  /-- One step up. -/
  | up
  /-- A name. -/
  | name (text : String)
  deriving DecidableEq, Repr

/-- What a piece that is neither first nor skipped stands for. -/
def part? (piece : String) : Option Part :=
  if piece = "" ∨ piece = "." then none
  else if piece = ".." then some .up
  else some (.name piece)

/-- The parts of a path, in order. -/
def parts (path : String) : List Part :=
  match pieces path with
  | [] => []
  | first :: rest =>
    let start :=
      if first = "" then (if rest.isEmpty then [] else [Part.root])
      else if first = "." then [Part.here]
      else (part? first).toList
    start ++ rest.filterMap part?

/-- The name of a part that is one. -/
def Part.name? : Part → Option String
  | name text => some text
  | _ => none

/-- The name a path is shown under: its last part, or the whole text where that is no name. -/
def displayName (path : String) : String :=
  ((parts path).getLast?.bind Part.name?).getD path

/-- The names of a path that consists of names alone. -/
def names? (path : String) : Option Location :=
  (parts path).mapM Part.name?

end Path

end ResumableUpload
