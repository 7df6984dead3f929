import ResumableUpload.OsError
import ResumableUpload.Path

/-
  OsPath — a path as the operating system is given it

  A path text is kept as what stands between its slashes. A look-up takes its
  steps one by one; empty pieces are no steps, so `a//b` and `a/b` lead to the
  same place, but the text counts: one that is too long, or holds a NUL
  character, is refused before any step is taken.

  What is held:
    1. `steps`, `slashed`, `lookupSteps` — what a look-up reads off a path.
    2. `join`, `above` — longer and shorter paths.
    3. `check` — the paths that are refused unseen.
-/

namespace ResumableUpload

/-- A path as the operating system is given it. -/
structure OsPath where
  /-- What stands between the slashes of its text. -/
  pieces : List String
  deriving DecidableEq, Repr

namespace OsPath

/-- The longest path that is looked up. -/
def maxBytes : Nat := 4095

/-- The path a text stands for. -/
def ofText (text : String) : OsPath := ⟨Path.pieces text⟩

/-- The text of a path. -/
def text (p : OsPath) : String := "/".intercalate p.pieces

/-- The length of its text. -/
def bytes (p : OsPath) : Nat :=
  (p.pieces.map String.utf8ByteSize).foldr (· + ·) 0 + (p.pieces.length - 1)

/-- The names to step through; `.` stays, `..` goes up. The empty text is the one empty step, which
leads nowhere. -/
def steps (p : OsPath) : List String :=
  if p.pieces = [""] then [""] else p.pieces.filter (· ≠ "")

/-- Whether a slash stands at the end: the path means a directory. -/
def slashed (p : OsPath) : Bool := p.pieces ≠ [""] && p.pieces.getLast? = some ""

/-- The steps of a look-up: what ends in a slash has to be a directory. -/
def lookupSteps (p : OsPath) : List String :=
  if p.slashed then p.steps ++ ["."] else p.steps

/-- The path `names` lead to from `base`. -/
def join (base : OsPath) (names : List String) : OsPath :=
  ⟨(if base.pieces.getLast? = some "" then base.pieces.dropLast else base.pieces) ++ names⟩

/-- Whether a piece leads on. -/
def leads (piece : String) : Bool := piece ≠ "" && piece ≠ "."

/-- The pieces up to the last that leads on. -/
def leading (pieces : List String) : List String :=
  (pieces.reverse.dropWhile fun piece => !leads piece).reverse

/-- The paths a path leads through, the longest first. -/
def above (p : OsPath) : List OsPath :=
  let pieces := leading p.pieces
  ((List.range (pieces.length - 1)).reverse.filter fun n => (pieces[n]?).any leads).map
    fun n => ⟨pieces.take (n + 1)⟩

/-- Whether the path holds a NUL character, which no call of the operating system takes. -/
def hasNul (p : OsPath) : Bool := p.pieces.any fun piece => piece.toList.contains '\x00'

/-- Refuses what is not looked up at all. -/
def check (p : OsPath) : Except OsError Unit :=
  if p.hasNul then .error .nulInPath
  else if maxBytes < p.bytes then .error .nameTooLong
  else .ok ()

theorem check_eq_ok_iff {p : OsPath} : p.check = .ok () ↔ p.hasNul = false ∧ p.bytes ≤ maxBytes := by
  unfold check
  cases p.hasNul <;> simp

end OsPath

end ResumableUpload
