import ResumableUpload.Proofs.Course.Figures
import ResumableUpload.Proofs.Path.Resolution

/-
  Shown — the name an upload is shown under

  A path is read from its front where it is resolved, and from its end where a
  name is wanted to show. From the front, the first piece decides how the others
  are read; from the end, pieces are skipped that lead nowhere, and whether the
  text begins with a slash or a lone dot counts only where nothing else is left.
  Both come to the same last part. So a file is shown under its own name, however
  its path is spelt.

  What is held:
    1. `Path.lastPart?`, `Path.partAtEnd?` — the last part of a text, read from
       its end.

  What is proved:
    1. `lastPart?_reverse`, `partAtEnd?_eq` — it is the last of the parts that are
       read from the front.
    2. `displayName_of_location` — where a path leads to a location, its name is
       the last of the location.
    3. `displayName_cases`, `displayName_eq_empty_iff` — what the name is of any
       text.
    4. `name_of_run` — an upload keeps the name of its path.
    5. `shown_name_is_last_of_location` — the same, said of what is shown.
-/

namespace ResumableUpload

namespace Path

/-- The part that characters begin with, if it is no name, and those behind it. -/
def opening : List Char → Option Part × List Char
  | '/' :: chars => (some .root, chars)
  | ['.'] => (some .here, [])
  | '.' :: '/' :: chars => (some .here, '/' :: chars)
  | chars => (none, chars)

/-- The last part in characters that are read from their end; `piece` is what was read since the last
slash. -/
def lastPart? (piece : List Char) : List Char → Option Part
  | [] => part? (String.ofList piece)
  | c :: before =>
    if c = '/' then (part? (String.ofList piece)).or (lastPart? [] before)
    else lastPart? (c :: piece) before

/-- The last part of a text, read from its end. -/
def partAtEnd? (path : String) : Option Part :=
  let (start, chars) := opening path.toList
  (lastPart? [] chars.reverse).or start

/-! ## From the end and from the front -/

theorem splitSlash_append (chars rest : List Char) :
    splitSlash (chars ++ '/' :: rest) = splitSlash chars ++ splitSlash rest := by
  induction chars with
  | nil => simp [splitSlash]
  | cons c cs ih =>
    rw [List.cons_append, splitSlash, splitSlash, ih]
    split
    · rfl
    · obtain ⟨first, more, hsplit⟩ := List.exists_cons_of_ne_nil (splitSlash_ne_nil cs)
      simp [hsplit]

/-- Read from the end, the last part is that of the last piece that stands for one. -/
theorem lastPart?_reverse {piece : List Char} (hpiece : '/' ∉ piece) (chars : List Char) :
    lastPart? piece chars.reverse =
      (((splitSlash (chars ++ piece)).map String.ofList).filterMap part?).getLast? := by
  induction chars using List.reverseRecOn generalizing piece with
  | nil => simp [lastPart?, splitSlash_of_no_slash hpiece, List.getLast?_filterMap]
  | append_singleton chars c ih =>
    rw [List.reverse_append, List.reverse_singleton, List.singleton_append, lastPart?]
    split
    · rename_i hslash
      rw [ih List.not_mem_nil, hslash, List.append_nil, List.append_assoc, List.singleton_append,
        splitSlash_append, splitSlash_of_no_slash hpiece]
      simp only [List.map_append, List.map_cons, List.map_nil, List.getLast?_filterMap,
        List.reverse_append, List.reverse_singleton, List.singleton_append, List.findSome?_cons]
      cases part? (String.ofList piece) <;> rfl
    · rename_i hslash
      have hmore : '/' ∉ c :: piece := by simp [hpiece, Ne.symm hslash]
      rw [ih hmore, List.append_assoc, List.singleton_append]

theorem parts_of_leads {path first : String} {rest : List String} (hpieces : pieces path = first :: rest)
    (hleads : OsPath.leads first = true) : parts path = (first :: rest).filterMap part? := by
  obtain ⟨hfirst, hhere⟩ := leads_iff.mp hleads
  rw [parts_eq hpieces, start, if_neg hfirst, if_neg hhere]
  cases hpart : part? first with
  | none => rw [List.filterMap_cons_none hpart]; rfl
  | some part => rw [List.filterMap_cons_some hpart]; rfl

theorem eq_or_slash_of_split {chars first : List Char} {rest : List (List Char)}
    (hsplit : splitSlash chars = first :: rest) :
    chars = first ∨ ∃ more, chars = first ++ '/' :: more := by
  have hjoined := intercalate_splitSlash chars
  rw [hsplit] at hjoined
  cases rest with
  | nil => exact .inl (by simpa using hjoined.symm)
  | cons second rest =>
    exact .inr ⟨_, by simpa [List.intercalate_cons_cons] using hjoined.symm⟩

/-- The parts of a text are what it begins with, if that is no name, and those of the pieces behind. -/
theorem parts_of_opening (path : String) :
    parts path = (opening path.toList).1.toList ++
      ((splitSlash (opening path.toList).2).map String.ofList).filterMap part? := by
  have hpieces : pieces path = (splitSlash path.toList).map String.ofList := rfl
  generalize path.toList = chars at hpieces ⊢
  fun_cases opening chars with
  | case1 cs =>
    have hmore := splitSlash_ne_nil cs
    rw [splitSlash, if_pos rfl] at hpieces
    rw [parts_eq hpieces]
    simp [start, hmore]
  | case2 =>
    rw [parts_eq hpieces]
    rfl
  | case3 cs =>
    rw [parts_eq hpieces]
    rfl
  | case4 _ hroot hdot hslash =>
    obtain ⟨first, rest, hsplit⟩ := List.exists_cons_of_ne_nil (splitSlash_ne_nil chars)
    rw [hsplit] at hpieces
    by_cases hchars : chars = []
    · rw [hchars] at hsplit
      cases hsplit
      rw [parts_eq hpieces, hchars]
      rfl
    · have hfront := eq_or_slash_of_split hsplit
      have hleads : OsPath.leads (String.ofList first) = true := by
        rw [leads_iff]
        constructor
        · intro hfirst
          obtain rfl : first = [] := by simpa using congrArg String.toList hfirst
          obtain hall | ⟨more, hmore⟩ := hfront
          · exact hchars hall
          · exact hroot more hmore
        · intro hfirst
          obtain rfl : first = ['.'] := by simpa using congrArg String.toList hfirst
          obtain hall | ⟨more, hmore⟩ := hfront
          · exact hdot hall
          · exact hslash more hmore
      rw [parts_of_leads hpieces hleads, hsplit]
      rfl

/-- Read from its end, a text has the last of the parts that are read from its front. -/
theorem partAtEnd?_eq (path : String) : partAtEnd? path = (parts path).getLast? := by
  have hend : partAtEnd? path =
      (lastPart? [] (opening path.toList).2.reverse).or (opening path.toList).1 := rfl
  rw [hend, lastPart?_reverse List.not_mem_nil, List.append_nil, parts_of_opening, List.getLast?_append]
  cases (opening path.toList).1 <;> rfl

/-! ## The name shown -/

/-- The name of a text is its last part, or the whole text. -/
theorem displayName_cases (path : String) :
    (∃ x, (parts path).getLast? = some (.name x) ∧ displayName path = x) ∨
      ((∀ x, (parts path).getLast? ≠ some (.name x)) ∧ displayName path = path) := by
  unfold displayName
  cases hlast : (parts path).getLast? with
  | none => simp
  | some part => cases part <;> simp [Part.name?]

theorem displayName_eq_empty_iff {path : String} : displayName path = "" ↔ path = "" := by
  obtain ⟨x, hlast, hname⟩ | ⟨-, hname⟩ := displayName_cases path
  · rw [hname]
    have hx : IsName x := isName_of_parts (List.mem_of_getLast? hlast)
    constructor
    · exact fun hempty => absurd hempty hx.nonempty
    · rintro rfl
      cases hlast
  · rw [hname]

end Path

variable {s : Storage} {path path' : String} {p q : OsPath}

theorem Storage.parts_of_location (h : s.location path = .ok p) :
    Path.parts path = (Path.kept path).map .name := by
  obtain ⟨-, ⟨first, hfirst, hleads⟩, -, -⟩ := resolve_eq_ok_iff.mp (location_eq_ok h).1
  obtain ⟨rest, hpieces⟩ := List.head?_eq_some_iff.mp hfirst
  -- a piece that leads nowhere is no part
  have hskip : (Path.kept path).filterMap Path.part? = (Path.pieces path).filterMap Path.part? := by
    rw [Path.kept, List.filterMap_filter]
    apply List.filterMap_congr
    intro x _
    by_cases hx : OsPath.leads x = true
    · rw [if_pos hx]
    · have hnot : x = "" ∨ x = "." := by
        rw [Path.leads_iff, not_and_or, not_not, not_not] at hx
        exact hx
      rw [if_neg hx, Path.part?, if_pos hnot]
  rw [Path.parts_of_leads hpieces hleads, ← hpieces, ← hskip]
  exact Path.filterMap_part? fun x hx => ((names_of_location h).2 x hx).1

theorem Storage.getLast?_kept (h : s.location path = .ok p) :
    (Path.kept path).getLast? = some (Path.displayName path) := by
  have hlast := List.getLast?_eq_some_getLast (names_of_location h).1
  rw [Path.displayName, parts_of_location h, List.getLast?_map, hlast]
  rfl

theorem Storage.displayName_of_location (h : s.location path = .ok p) :
    p.pieces.getLast? = some (Path.displayName path) ∧
      (Path.parts p.text).getLast? = some (.name (Path.displayName path)) ∧
      IsName (Path.displayName path) ∧ '/' ∉ (Path.displayName path).toList := by
  have hlast := getLast?_kept h
  refine ⟨?_, ?_, (names_of_location h).2 _ (List.mem_of_getLast? hlast)⟩
  · have hpieces : p.pieces = s.basePath.stem ++ Path.kept path := by
      rw [(location_eq_ok h).2]
      rfl
    rw [hpieces, List.getLast?_append, hlast]
    rfl
  · rw [parts_location h, List.getLast?_append, List.getLast?_map, hlast]
    rfl

theorem Storage.displayName_congr (h : s.location path = .ok p) (h' : s.location path' = .ok q)
    (hsame : p.text = q.text) : Path.displayName path = Path.displayName path' := by
  have hlast := getLast?_kept h
  rw [(text_location_inj h h').mp hsame, getLast?_kept h'] at hlast
  exact (Option.some.inj hlast).symm

theorem kept_name : Kept fun _ _ r => r.name = Path.displayName r.path where
  fresh := fun _ _ _ _ _ => rfl
  accept := fun _ _ _ _ h _ => h
  mark := fun _ _ _ _ h => h
  take := fun _ _ _ _ h _ => h
  write := fun _ _ _ _ h => h
  fail := fun _ _ _ _ _ h => h
  abandon := fun _ _ _ _ h => h

/-- Whatever the moves, an upload is shown under the name of its path. -/
theorem Course.name_of_run {e : Engine} (hempty : e.registry = .empty) (moves : List Move) {q : String}
    {st : Status} (h : ((new e).run moves).engine.registry.status q = .ok st) :
    st.name = Path.displayName q ∧ ∃ names, Storage.resolve q = .ok names := by
  cases hfind : ((new e).run moves).engine.registry.find? q with
  | none =>
    rw [Registry.status, Registry.get, hfind] at h
    cases h
  | some r =>
    rw [Registry.status, Registry.get, hfind] at h
    obtain rfl : r.status = st := Except.ok.inj h
    have hname : r.name = Path.displayName r.path := each_run kept_name e hempty moves q r hfind
    rw [Registry.path_of_find? hfind] at hname
    exact ⟨hname, (admitted_run hempty hfind).2.1⟩

/-- An upload is shown under the last name of its location. Where a path leads to a location, its name is
the last part of that location; so it is not empty, holds no slash and is neither `.` nor `..`, and all
spellings of the location have it. Whatever the text, the name that is found from its end is the last of the
parts found from its front, if that is a name, and the whole text otherwise; it is empty for the empty text
only. An upload is registered with the name of its path and shown under it, whatever the moves, and its path
leads to a location. -/
theorem shown_name_is_last_of_location (s : Storage) (path : String) :
    let name := Path.displayName path
    (∀ p, s.location path = .ok p →
      p.pieces.getLast? = some name ∧ (Path.parts p.text).getLast? = some (.name name) ∧
      name ≠ "" ∧ '/' ∉ name.toList ∧ name ≠ "." ∧ name ≠ ".." ∧
      ∀ path' q, s.location path' = .ok q → q.text = p.text → Path.displayName path' = name) ∧
    Path.partAtEnd? path = (Path.parts path).getLast? ∧
    name = ((Path.partAtEnd? path).bind Path.Part.name?).getD path ∧
    ((∃ x, (Path.parts path).getLast? = some (.name x) ∧ name = x) ∨
      ((∀ x, (Path.parts path).getLast? ≠ some (.name x)) ∧ name = path)) ∧
    (name = "" ↔ path = "") ∧
    (∀ id size owner clientPath, (Record.new id path size owner clientPath).status.name = name) ∧
    ∀ disk writers maxSize capacity moves st,
      ((Course.new (.new disk s writers maxSize capacity)).run moves).engine.registry.status path = .ok st →
        st.name = name ∧ ∃ p, s.location path = .ok p := by
  intro name
  have hend : name = ((Path.partAtEnd? path).bind Path.Part.name?).getD path := by
    rw [Path.partAtEnd?_eq]
    rfl
  refine ⟨fun p hp => ?_, Path.partAtEnd?_eq path, hend, Path.displayName_cases path,
    Path.displayName_eq_empty_iff, fun _ _ _ _ => rfl, ?_⟩
  · obtain ⟨hpieces, hparts, hname, hslash⟩ := Storage.displayName_of_location hp
    exact ⟨hpieces, hparts, hname.nonempty, hslash, hname.notHere, hname.notUp,
      fun path' q hq hsame => Storage.displayName_congr hq hp hsame⟩
  · intro disk writers maxSize capacity moves st hst
    obtain ⟨hname, names, hnames⟩ :=
      Course.name_of_run (e := .new disk s writers maxSize capacity) rfl moves hst
    exact ⟨hname, s.filePath names, Storage.location_of_resolve hnames⟩

/-- Slashes and a lone dot at the end are skipped; a step up is no name, and such a text is shown whole. -/
theorem beach_is_shown_by_its_name :
    (Storage.mk "up/").location "photos//beach.jpg/./" = .ok ⟨["up", "photos", "beach.jpg"]⟩ ∧
      Path.displayName "photos//beach.jpg/./" = "beach.jpg" ∧ Path.displayName "photos/.." = "photos/.." := by
  have hlocation : (Storage.mk "up/").location "photos//beach.jpg/./" =
      .ok ⟨["up", "photos", "beach.jpg"]⟩ := by rfl
  obtain ⟨hlast, -⟩ := (shown_name_is_last_of_location ⟨"up/"⟩ "photos//beach.jpg/./").1 _ hlocation
  obtain ⟨-, -, hname, -⟩ := shown_name_is_last_of_location ⟨"up/"⟩ "photos/.."
  exact ⟨hlocation, (Option.some.inj hlast).symm, hname⟩

end ResumableUpload
