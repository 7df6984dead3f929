/-
  TOML values

  What a TOML text says: a table of named values. Floats and dates are kept as
  they are written, since nothing here computes with them.
-/

namespace ResumableUpload.Toml

/-- A TOML value. -/
inductive Value where
  | string (text : String)
  | integer (value : Int)
  | float (text : String)
  | boolean (value : Bool)
  | dateTime (text : String)
  | array (items : List Value)
  | table (members : List (String × Value))

instance : Inhabited Value := ⟨.table []⟩

/-- How deep arrays and inline tables may lie in each other, and how many parts a key may have:
one less than this. -/
def depthLimit : Nat := 80

end ResumableUpload.Toml
