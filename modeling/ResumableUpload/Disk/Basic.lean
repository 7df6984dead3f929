import ResumableUpload.Content
import ResumableUpload.OsPath

/-
  Disk — a directory tree

  A disk is a table from locations to entries: directories, regular files and
  symbolic links. The top, `[]`, is a directory always. A file carries the
  serial number it was created under, so a handle kept open can tell whether
  the file at its location is still the one it opened.

  What is held:
    1. `get?`, `set`, `erase`, `clear` — the table. The view of a disk is `get?`;
       `get?_set`, `get?_addFile`, `get?_erase` and `get?_clear` say what each
       change makes of it.
    2. `locate` — where a path leads. `tread` takes the steps one by one up to
       the first link it has to follow; `walk` follows links, `maxLinks` at most.

  ── ASSUMED ──────────────────────────────────────────────────────────────────
    - One user, who may do everything: a look-up is refused for what lies on the
      way and for the length of a name or of the path, and for nothing else.
    - Directories and links come from outside; two names of one file (hard
      links) do not occur.
-/

namespace ResumableUpload

/-- What lies at a location. -/
inductive Entry where
  | directory
  /-- A regular file, with the number it was created under. -/
  | file (serial : Nat) (content : Content)
  /-- A symbolic link and the path text it stands for. -/
  | link (target : String)

/-- Whether the entry is a directory. -/
def Entry.isDirectory : Entry → Bool
  | directory => true
  | _ => false

/-- The length of a regular file; directories and links take no space. -/
def Entry.fileSize : Entry → Nat
  | file _ content => content.size
  | _ => 0

/-- The size a directory is shown with: one block. -/
def blockBytes : Nat := 4096

/-- The size an entry is shown with. -/
def Entry.shownSize : Entry → Nat
  | directory => blockBytes
  | e => e.fileSize

/-- A directory tree. -/
structure Disk where
  /-- What is below the top. -/
  entries : List (Location × Entry)
  /-- The serial number of the next file created. -/
  nextSerial : Nat

namespace Disk

/-- The longest name a directory takes. -/
def maxNameBytes : Nat := 255

/-- How many links one path may lead through. -/
def maxLinks : Nat := 40

/-- Offsets from here on are no offsets. -/
def offsetLimit : Nat := Nat.pow 2 63

/-- The tree that is only its top. -/
def empty : Disk := ⟨[], 0⟩

instance : Inhabited Disk := ⟨empty⟩

/-- The entry at a location. -/
def get? (d : Disk) (loc : Location) : Option Entry :=
  if loc = [] then some .directory else d.entries.lookup loc

/-- The table with `entry` at `loc`, in the place of what was there. -/
def setIn (loc : Location) (entry : Entry) : List (Location × Entry) → List (Location × Entry)
  | [] => [(loc, entry)]
  | (l, x) :: rest => if l = loc then (loc, entry) :: rest else (l, x) :: setIn loc entry rest

/-- The disk with `entry` at `loc`. -/
def set (d : Disk) (loc : Location) (entry : Entry) : Disk :=
  { d with entries := setIn loc entry d.entries }

/-- The disk without the entry at `loc`. -/
def erase (d : Disk) (loc : Location) : Disk :=
  { d with entries := d.entries.filter fun e => e.1 ≠ loc }

/-- The disk without what lies below `loc`. -/
def clear (d : Disk) (loc : Location) : Disk :=
  { d with entries := d.entries.filter fun e => decide (e.1 = loc) || !loc.isPrefixOf e.1 }

/-- The disk with a new file at `loc`. -/
def addFile (d : Disk) (loc : Location) (content : Content) : Disk :=
  { d.set loc (.file d.nextSerial content) with nextSerial := d.nextSerial + 1 }

@[simp] theorem get?_nil (d : Disk) : d.get? [] = some .directory := rfl

theorem lookup_setIn (loc q : Location) (entry : Entry) (es : List (Location × Entry)) :
    (setIn loc entry es).lookup q = if q = loc then some entry else es.lookup q := by
  induction es with
  | nil =>
    by_cases h : q = loc
    · simp [setIn, h]
    · have hq : (q == loc) = false := by simp [h]
      simp [setIn, List.lookup_cons, h, hq]
  | cons e rest ih =>
    obtain ⟨l, x⟩ := e
    unfold setIn
    by_cases hl : l = loc
    · subst hl
      by_cases h : q = l
      · simp [h]
      · have hq : (q == l) = false := by simp [h]
        simp [List.lookup_cons, h, hq]
    · simp only [hl, if_false, List.lookup_cons, ih]
      by_cases h : q = loc
      · -- the location looked for is not the one passed over
        have hq : (q == l) = false := by simp [h, Ne.symm hl]
        rw [hq, if_pos h]
      · cases q == l <;> simp [h]

/-- What is set is there, and nothing else moves. -/
theorem get?_set (d : Disk) {loc : Location} (hloc : loc ≠ []) (q : Location) (entry : Entry) :
    (d.set loc entry).get? q = if q = loc then some entry else d.get? q := by
  unfold get? set
  by_cases hq : q = []
  · simp [hq, Ne.symm hloc]
  · simp [hq, lookup_setIn]

/-- A new file is there, and nothing else moves. -/
theorem get?_addFile (d : Disk) {loc : Location} (hloc : loc ≠ []) (q : Location) (content : Content) :
    (d.addFile loc content).get? q =
      if q = loc then some (.file d.nextSerial content) else d.get? q :=
  get?_set d hloc q _

theorem setIn_setIn (loc : Location) (a b : Entry) (es : List (Location × Entry)) :
    setIn loc b (setIn loc a es) = setIn loc b es := by
  induction es with
  | nil => simp [setIn]
  | cons e rest ih => by_cases h : e.1 = loc <;> simp [setIn, h, ih]

theorem setIn_of_lookup {loc : Location} {entry : Entry} {es : List (Location × Entry)}
    (h : es.lookup loc = some entry) : setIn loc entry es = es := by
  induction es with
  | nil => simp at h
  | cons e rest ih =>
    obtain ⟨l, x⟩ := e
    by_cases hl : l = loc
    · subst hl
      simp at h
      simp [setIn, h]
    · have hq : (loc == l) = false := by simp [Ne.symm hl]
      simp only [List.lookup_cons, hq] at h
      simp [setIn, hl, ih h]

theorem set_set (d : Disk) (loc : Location) (a b : Entry) : (d.set loc a).set loc b = d.set loc b := by
  simp [set, setIn_setIn]

theorem set_of_get? {d : Disk} {loc : Location} (hloc : loc ≠ []) {entry : Entry}
    (h : d.get? loc = some entry) : d.set loc entry = d := by
  simp only [get?, hloc, if_false] at h
  simp [set, setIn_of_lookup h]

theorem lookup_filter (keep : Location → Bool) (q : Location) (es : List (Location × Entry)) :
    (es.filter fun e => keep e.1).lookup q = if keep q then es.lookup q else none := by
  induction es with
  | nil => simp
  | cons e rest ih =>
    obtain ⟨l, x⟩ := e
    by_cases hl : q = l
    · subst hl
      by_cases hk : keep q <;> simp [hk, ih]
    · have hq : (q == l) = false := by simp [hl]
      by_cases hk : keep l <;> simp [hk, List.lookup_cons, ih, hq]

/-- What is erased is gone, and nothing else moves. -/
theorem get?_erase (d : Disk) {loc : Location} (hloc : loc ≠ []) (q : Location) :
    (d.erase loc).get? q = if q = loc then none else d.get? q := by
  unfold get? erase
  by_cases hq : q = []
  · simp [hq, Ne.symm hloc]
  · simp only [hq, if_false]
    rw [lookup_filter fun l => decide (l ≠ loc)]
    by_cases hl : q = loc <;> simp [hl]

/-- What lies below the location is gone; the location itself and all else stay. -/
theorem get?_clear (d : Disk) (loc q : Location) :
    (d.clear loc).get? q =
      if q ≠ [] ∧ q ≠ loc ∧ loc.isPrefixOf q then none else d.get? q := by
  unfold get? clear
  by_cases hq : q = []
  · simp [hq]
  · simp only [hq, if_false]
    rw [lookup_filter fun l => decide (l = loc) || !loc.isPrefixOf l]
    by_cases hl : q = loc
    · simp [hl]
    · cases loc.isPrefixOf q <;> simp [hl, hq]

/-! ## Where paths lead -/

/-- Where a path leads. -/
inductive Place where
  /-- Something is there. -/
  | present (loc : Location) (entry : Entry)
  /-- Nothing is there, but its directory is. -/
  | absent (loc : Location)

/-- Where a path leads before any link is followed. -/
inductive Stop where
  | reached (loc : Location) (entry : Entry)
  | free (loc : Location)
  /-- A link has to be followed: the directory it lies in, its target, the steps after it. -/
  | detour (dir : Location) (target : String) (rest : List String)

/-- Takes `steps` from the directory `cur`, up to a link that has to be followed. The last name may
be a link, and is followed only if `follow` asks for it. -/
def tread (d : Disk) (follow : Bool) (cur : Location) : List String → Except OsError Stop
  | [] => .ok (.reached cur .directory)
  | step :: rest =>
    if step = "" then .error .notFound
    else if step = "." then d.tread follow cur rest
    else if step = ".." then d.tread follow cur.dropLast rest
    else if maxNameBytes < step.utf8ByteSize then .error .nameTooLong
    else
      let loc := cur ++ [step]
      match d.get? loc with
      -- only the last name may be missing: its directory is there to take it
      | none => if rest.isEmpty then .ok (.free loc) else .error .notFound
      | some .directory => d.tread follow loc rest
      | some (.file serial content) =>
        if rest.isEmpty then .ok (.reached loc (.file serial content)) else .error .notDirectory
      | some (.link target) =>
        if rest.isEmpty && !follow then .ok (.reached loc (.link target))
        else .ok (.detour cur target rest)

/-- Where the target of a link in `dir` starts: at the top if it begins with a slash. -/
def linkStart (dir : Location) (target : String) : Location :=
  if target.toList.head? = some '/' then [] else dir

/-- Takes `steps` from the directory `cur`, through `hops` links at most. -/
def walk (d : Disk) (follow : Bool) (hops : Nat) (cur : Location) (steps : List String) :
    Except OsError Place :=
  match d.tread follow cur steps with
  | .error cause => .error cause
  | .ok (.reached loc entry) => .ok (.present loc entry)
  | .ok (.free loc) => .ok (.absent loc)
  | .ok (.detour dir target rest) =>
    match hops with
    | 0 => .error .linkLoop
    | hops + 1 =>
      d.walk follow hops (linkStart dir target) ((OsPath.ofText target).lookupSteps ++ rest)

/-- Where a path leads; the last name is followed if it is a link and `follow` asks for it. -/
def locate (d : Disk) (follow : Bool) (p : OsPath) : Except OsError Place :=
  match p.check with
  | .error cause => .error cause
  | .ok () => d.walk follow maxLinks [] p.lookupSteps

/-- The entry that goes by a path's last name. It is not followed if it is a link, not even where a
slash stands behind its name. -/
def locateName (d : Disk) (p : OsPath) : Except OsError Place :=
  match p.check with
  | .error cause => .error cause
  | .ok () => d.walk false maxLinks [] p.steps

end Disk

end ResumableUpload
