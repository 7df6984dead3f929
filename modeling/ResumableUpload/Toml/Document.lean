import ResumableUpload.Toml.Grammar

/-
  TOML documents

  A text is a list of statements. The pairs before the first header belong to
  the top; the pairs after a header belong to its table, up to the next header.

  What is held:
    1. `Section` — a header with its pairs; `sections` groups statements.
    2. `parse` — the members of the top table.
-/

namespace ResumableUpload.Toml

/-- A header with the pairs that follow it. -/
structure Section where
  /-- Whether the header adds an element to an array of tables. -/
  isElement : Bool
  path : List String
  key : String
  pairs : List Pair

/-- The pairs before the first header, and the headers with theirs. -/
def sections : List Statement → List Pair × List Section
  | [] => ([], [])
  | .pair p :: rest => let (ps, ss) := sections rest; (p :: ps, ss)
  | .table path key :: rest => let (ps, ss) := sections rest; ([], ⟨false, path, key, ps⟩ :: ss)
  | .element path key :: rest => let (ps, ss) := sections rest; ([], ⟨true, path, key, ps⟩ :: ss)

/-- The table with one more header and its pairs. -/
def insertSection (top : Items) (s : Section) : Option Items :=
  if s.isElement then insertElement top s.path s.key s.pairs
  else insertTable top s.path s.key s.pairs

/-- The text without a byte-order mark at its front. -/
def dropMark : List Char → List Char
  | '\ufeff' :: rest => rest
  | cs => cs

/-- The members of the top table of a text; `none` if it is no TOML. -/
def parse (text : String) : Option (List (String × Value)) :=
  let cs := dropMark text.toList
  match statements (cs.length + 1) cs with
  | none => none
  | some ss =>
    let (pairs, rest) := sections ss
    match insertPairs [] pairs with
    | none => none
    | some top => (rest.foldlM insertSection top).map itemsToMembers

end ResumableUpload.Toml
