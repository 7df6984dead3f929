import ResumableUpload.Toml.Value

/-
  TOML tables under construction

  A table comes into being in three ways: by a header of its own, as the parent
  of a header, or through a dotted key. Which of them decides what may still be
  added to it:

    * a header may name a table once, and may still name one that so far is
      only the parent of another header;
    * a dotted key may pass through tables that no header names, and may add to
      those only that dotted keys made;
    * a header passes through the last element of an array of tables;
    * a value is never added to.

  What is held:
    1. `Node`, `Items` — a table under construction.
    2. `insertPair`, `insertTable`, `insertElement`.
    3. `Node.toValue` — the finished value.
-/

namespace ResumableUpload.Toml

/-- What brought a table into being. -/
inductive Origin where
  /-- A header of its own, or the top of the text. -/
  | header
  /-- A header of a table below it. -/
  | parent
  /-- A dotted key. -/
  | dotted
  deriving DecidableEq, Repr

/-- A member of a table under construction. -/
inductive Node where
  | leaf (value : Value)
  | table (origin : Origin) (items : List (String × Node))
  /-- An array of tables; headers add to it. -/
  | tables (elements : List (List (String × Node)))

/-- The members of a table under construction, in the order of their making. -/
abbrev Items := List (String × Node)

/-- Changes the member `key`, or adds it; `none` where `change` refuses. -/
def alterItem (key : String) (change : Option Node → Option Node) : Items → Option Items
  | [] => (change none).map fun node => [(key, node)]
  | (k, node) :: rest =>
    if k = key then (change (some node)).map fun node => (k, node) :: rest
    else (alterItem key change rest).map fun rest => (k, node) :: rest

/-- Steps down a path and changes the table it ends at. Missing tables are made on the way. -/
def descend (dotted : Bool) (change : Origin → Items → Option Items) :
    List String → Origin → Items → Option Items
  | [], origin, items => change origin items
  | key :: path, _, items =>
    items |> alterItem key fun
      | none =>
        let origin := if dotted then Origin.dotted else Origin.parent
        (descend dotted change path origin []).map (Node.table origin)
      | some (.leaf _) => none
      | some (.table origin items) =>
        -- what a header names is closed to dotted keys
        if dotted && origin = .header then none
        else (descend dotted change path origin items).map (Node.table origin)
      | some (.tables elements) =>
        match elements.getLast? with
        | none => none
        | some last =>
          -- an element counts as named by a header, its own
          (descend dotted change path .header last).map fun last =>
            Node.tables (elements.dropLast ++ [last])

/-- A pair of a text: the parts of its key, and its value. -/
structure Pair where
  path : List String
  key : String
  value : Value

/-- Adds a pair to a table. A dotted key ends in a table that dotted keys made, a plain one does
not; no key is given a value twice. -/
def insertPair (items : Items) (pair : Pair) : Option Items :=
  descend true
    (fun origin items =>
      if decide (origin = .dotted) == pair.path.isEmpty then none
      else alterItem pair.key (fun
        | none => some (.leaf pair.value)
        | some _ => none) items)
    pair.path .header items

/-- Adds pairs, one after another. -/
def insertPairs (items : Items) (pairs : List Pair) : Option Items :=
  pairs.foldlM insertPair items

/-- Adds the table of a header, with its pairs. -/
def insertTable (items : Items) (path : List String) (key : String) (pairs : List Pair) :
    Option Items :=
  descend false
    (fun _ items => items |> alterItem key fun
      | none => (insertPairs [] pairs).map (Node.table .header)
      | some (.table .parent items) => (insertPairs items pairs).map (Node.table .header)
      | some _ => none)
    path .header items

/-- Adds an element, with its pairs, to the array of tables of a header. -/
def insertElement (items : Items) (path : List String) (key : String) (pairs : List Pair) :
    Option Items :=
  descend false
    (fun _ items => items |> alterItem key fun
      | none => (insertPairs [] pairs).map fun element => Node.tables [element]
      | some (.tables elements) =>
        (insertPairs [] pairs).map fun element => Node.tables (elements ++ [element])
      | some _ => none)
    path .header items

mutual

/-- The finished value of a member. -/
def Node.toValue : Node → Value
  | .leaf value => value
  | .table _ items => .table (itemsToMembers items)
  | .tables elements => .array (elementsToValues elements)

/-- The finished members of a table. -/
def itemsToMembers : List (String × Node) → List (String × Value)
  | [] => []
  | (key, node) :: rest => (key, node.toValue) :: itemsToMembers rest

/-- The finished elements of an array of tables. -/
def elementsToValues : List (List (String × Node)) → List Value
  | [] => []
  | items :: rest => .table (itemsToMembers items) :: elementsToValues rest

end

/-- The table that the pairs of an inline table make. -/
def inlineTable (pairs : List Pair) : Option Value :=
  (insertPairs [] pairs).map fun items => .table (itemsToMembers items)

end ResumableUpload.Toml
