import ResumableUpload.Proofs.Disk.Storing

/-
  Resolution — what a storage path comes to

  A text is accepted unless it is empty, begins with a slash or a lone dot, or
  has a step up among its pieces. What is left of an accepted one are its
  pieces that lead on, and these, put behind the base, are its location. So the
  names decide: the spelling with one slash between them is accepted for the
  same location, and two texts have one location just if their names agree.

  What is held:
    1. `Path.kept` — the pieces of a text that lead on.
    2. `Storage.location` — where a storage path leads.

  What is proved:
    1. `pieces_intercalate`, `intercalate_pieces` — split and joined at slashes.
    2. `resolve_of_refused`, `resolve_eq_ok_iff` — which texts are refused, and
       what the others come to.
    3. `text_location`, `parts_location` — the location as a text, and part by
       part.
    4. `text_location_inj`, `parts_location_inj` — when two texts have one.
-/

namespace ResumableUpload

namespace Path

/-- The pieces of a path text that lead on. -/
def kept (path : String) : List String := (pieces path).filter OsPath.leads

/-! ## Split and joined at slashes -/

theorem splitSlash_no_slash (chars : List Char) : ∀ piece ∈ splitSlash chars, '/' ∉ piece := by
  induction chars with
  | nil => simp [splitSlash]
  | cons c cs ih =>
    unfold splitSlash
    split
    · simpa using ih
    · rename_i hc
      split
      · simpa using Ne.symm hc
      · rename_i first rest hsplit
        rw [hsplit] at ih
        have hfirst := ih first List.mem_cons_self
        intro piece hpiece
        rcases List.mem_cons.mp hpiece with rfl | hpiece
        · simp [Ne.symm hc, hfirst]
        · exact ih piece (List.mem_cons_of_mem first hpiece)

theorem splitSlash_of_no_slash {piece : List Char} (h : '/' ∉ piece) : splitSlash piece = [piece] := by
  induction piece with
  | nil => rfl
  | cons c cs ih =>
    have hc : c ≠ '/' := fun hc => h (hc ▸ List.mem_cons_self)
    rw [splitSlash, if_neg hc, ih fun hmem => h (List.mem_cons_of_mem c hmem)]

theorem splitSlash_append_slash {piece : List Char} (h : '/' ∉ piece) (rest : List Char) :
    splitSlash (piece ++ '/' :: rest) = piece :: splitSlash rest := by
  induction piece with
  | nil => simp [splitSlash]
  | cons c cs ih =>
    have hc : c ≠ '/' := fun hc => h (hc ▸ List.mem_cons_self)
    rw [List.cons_append, splitSlash, if_neg hc, ih fun hmem => h (List.mem_cons_of_mem c hmem)]

theorem splitSlash_intercalate {xs : List (List Char)} (hne : xs ≠ []) (h : ∀ x ∈ xs, '/' ∉ x) :
    splitSlash (['/'].intercalate xs) = xs := by
  induction xs with
  | nil => exact absurd rfl hne
  | cons x xs ih =>
    have hx := h x List.mem_cons_self
    cases xs with
    | nil => simpa using splitSlash_of_no_slash hx
    | cons y ys =>
      rw [List.intercalate_cons_cons, List.append_assoc, List.singleton_append,
        splitSlash_append_slash hx, ih (by simp) fun z hz => h z (List.mem_cons_of_mem x hz)]

theorem intercalate_splitSlash (chars : List Char) : ['/'].intercalate (splitSlash chars) = chars := by
  induction chars with
  | nil => rfl
  | cons c cs ih =>
    unfold splitSlash
    cases hsplit : splitSlash cs with
    | nil => exact absurd hsplit (splitSlash_ne_nil cs)
    | cons first rest =>
      rw [hsplit] at ih
      split
      · rename_i hc
        rw [List.intercalate_cons_cons, ih, hc]
        rfl
      · cases rest <;> simpa [List.intercalate_cons_cons] using ih

theorem pieces_no_slash {path x : String} (h : x ∈ pieces path) : '/' ∉ x.toList := by
  obtain ⟨piece, hpiece, rfl⟩ := List.mem_map.mp h
  rw [String.toList_ofList]
  exact splitSlash_no_slash _ piece hpiece

theorem pieces_ne_nil (path : String) : pieces path ≠ [] := by
  simpa [pieces] using splitSlash_ne_nil path.toList

/-- What holds no slash comes apart as it was put together. -/
theorem pieces_intercalate {xs : List String} (hne : xs ≠ []) (h : ∀ x ∈ xs, '/' ∉ x.toList) :
    pieces ("/".intercalate xs) = xs := by
  have hsplit : splitSlash (['/'].intercalate (xs.map String.toList)) = xs.map String.toList :=
    splitSlash_intercalate (by simpa using hne) (by simpa using h)
  have hslash : "/".toList = ['/'] := rfl
  rw [pieces, String.toList_intercalate, hslash, hsplit]
  simp [Function.comp_def]

theorem intercalate_pieces (path : String) : "/".intercalate (pieces path) = path := by
  rw [← String.toList_inj, String.toList_intercalate, pieces, List.map_map]
  have hsame : String.toList ∘ String.ofList = id := funext fun chars => String.toList_ofList
  rw [hsame, List.map_id]
  exact intercalate_splitSlash path.toList

theorem intercalate_append {xs ys : List String} (hxs : xs ≠ []) (hys : ys ≠ []) :
    "/".intercalate (xs ++ ys) = "/".intercalate xs ++ "/" ++ "/".intercalate ys := by
  rw [← String.toList_inj]
  simp only [String.toList_append, String.toList_intercalate, List.map_append]
  induction xs with
  | nil => exact absurd rfl hxs
  | cons x xs ih =>
    cases xs with
    | nil =>
      cases ys with
      | nil => exact absurd rfl hys
      | cons y ys => simp [List.intercalate_cons_cons]
    | cons z zs => simpa [List.intercalate_cons_cons] using ih (by simp)

theorem pieces_of_slash {path : String} (h : path.toList.head? = some '/') :
    ∃ rest, rest ≠ [] ∧ pieces path = "" :: rest := by
  cases hchars : path.toList with
  | nil => simp [hchars] at h
  | cons c cs =>
    obtain rfl : c = '/' := by simpa [hchars] using h
    refine ⟨(splitSlash cs).map String.ofList, by simpa using splitSlash_ne_nil cs, ?_⟩
    simp [pieces, hchars, splitSlash]

/-! ## The names of a text -/

theorem leads_iff {piece : String} : OsPath.leads piece = true ↔ piece ≠ "" ∧ piece ≠ "." := by
  simp [OsPath.leads]

theorem mapM_name?_filterMap (xs : List String) :
    (xs.filterMap part?).mapM Part.name? =
      if ".." ∈ xs then none else some (xs.filter OsPath.leads) := by
  induction xs with
  | nil => rfl
  | cons x xs ih =>
    by_cases hskip : x = "" ∨ x = "."
    · have hpart : part? x = none := if_pos hskip
      have hleads : OsPath.leads x = false := by rcases hskip with rfl | rfl <;> rfl
      have hup : ".." ≠ x := by rcases hskip with rfl | rfl <;> decide
      rw [List.filterMap_cons_none hpart, ih]
      simp [hleads, hup]
    · have hleads : OsPath.leads x = true := leads_iff.mpr (not_or.mp hskip)
      by_cases hup : x = ".."
      · simp [hup, part?, Part.name?]
      · have hpart : part? x = some (.name x) := by rw [part?, if_neg hskip, if_neg hup]
        rw [List.filterMap_cons_some hpart, List.mapM_cons, ih]
        by_cases hmem : ".." ∈ xs <;> simp [Part.name?, hmem, hleads, Ne.symm hup]

/-- What the first piece stands for, which may be alone. -/
def start (first : String) (alone : Bool) : List Part :=
  if first = "" then (if alone then [] else [.root])
  else if first = "." then [.here]
  else (part? first).toList

theorem parts_eq {path first : String} {rest : List String} (h : pieces path = first :: rest) :
    parts path = start first rest.isEmpty ++ rest.filterMap part? := by
  simp only [parts, h]
  rfl

theorem part?_of_isName {x : String} (h : IsName x) : part? x = some (.name x) := by
  rw [part?, if_neg (not_or.mpr ⟨h.nonempty, h.notHere⟩), if_neg h.notUp]

theorem start_of_isName {x : String} (h : IsName x) (alone : Bool) : start x alone = [.name x] := by
  rw [start, if_neg h.nonempty, if_neg h.notHere, part?_of_isName h]
  rfl

theorem filterMap_part? {xs : List String} (h : ∀ x ∈ xs, IsName x) :
    xs.filterMap part? = xs.map .name := by
  induction xs with
  | nil => rfl
  | cons x xs ih =>
    rw [List.filterMap_cons_some (part?_of_isName (h x List.mem_cons_self)),
      ih fun y hy => h y (List.mem_cons_of_mem x hy), List.map_cons]

/-- A text consists of names alone just if its first piece leads on and no piece is a step up. -/
theorem names?_eq_some_iff {path : String} (hpath : path ≠ "") {names : Location} :
    names? path = some names ↔
      (∃ first ∈ (pieces path).head?, OsPath.leads first = true) ∧ ".." ∉ pieces path ∧
        names = kept path := by
  unfold names? kept
  obtain ⟨rest, hpieces, hrest⟩ | ⟨first, rest, hpieces, hfirst⟩ := pieces_cases hpath
  · -- the root is no name
    have hmore : rest.isEmpty = false := by simpa using hrest
    simp [parts, hpieces, hmore, Part.name?, OsPath.leads]
  by_cases hhere : first = "."
  · simp [parts, hpieces, hhere, Part.name?, OsPath.leads]
  · have hleads : OsPath.leads first = true := leads_iff.mpr ⟨hfirst, hhere⟩
    -- the first piece is read as those behind it
    have hparts : parts path = (first :: rest).filterMap part? := by
      simp only [parts, hpieces, if_neg hfirst, if_neg hhere]
      cases hpart : part? first with
      | none => simp [hpart]
      | some part => simp [hpart]
    rw [hparts, mapM_name?_filterMap, hpieces]
    by_cases hup : ".." ∈ first :: rest
    · simp [hup]
    · simp only [hup, if_false, List.head?_cons, Option.mem_def, Option.some.injEq, exists_eq_left',
        hleads, not_false_eq_true, true_and]
      exact eq_comm

end Path

namespace Storage

/-- Where a storage path leads. -/
def location (s : Storage) (path : String) : Except Error OsPath := (resolve path).map s.filePath

variable {s : Storage} {path : String} {names : Location}

/-! ## Refused and accepted -/

theorem resolve_eq_ok_iff : resolve path = .ok names ↔
    path ≠ "" ∧ (∃ first ∈ (Path.pieces path).head?, OsPath.leads first = true) ∧
      ".." ∉ Path.pieces path ∧ names = Path.kept path := by
  unfold resolve
  by_cases hpath : path = ""
  · simp [hpath]
  · rw [if_neg hpath, ← Path.names?_eq_some_iff hpath]
    cases Path.names? path <;> simp [hpath]

theorem resolve_cases (path : String) :
    (∃ why, resolve path = .error (.validation why)) ∨ ∃ names, resolve path = .ok names := by
  unfold resolve
  split
  · exact .inl ⟨_, rfl⟩
  · split
    · exact .inl ⟨_, rfl⟩
    · exact .inr ⟨_, rfl⟩

theorem resolve_of_refused
    (h : path = "" ∨ path.toList.head? = some '/' ∨ ".." ∈ Path.pieces path) :
    ∃ why, resolve path = .error (.validation why) := by
  rcases resolve_cases path with hrefused | ⟨names, hok⟩
  · exact hrefused
  obtain ⟨hpath, ⟨first, hfirst, hleads⟩, hup, -⟩ := resolve_eq_ok_iff.mp hok
  rcases h with hempty | hslash | hdots
  · exact absurd hempty hpath
  · obtain ⟨rest, -, hpieces⟩ := Path.pieces_of_slash hslash
    rw [hpieces] at hfirst
    cases hfirst
    cases hleads
  · exact absurd hdots hup

theorem eq_kept_of_resolve (h : resolve path = .ok names) : names = Path.kept path :=
  (resolve_eq_ok_iff.mp h).2.2.2

theorem no_slash_of_resolve (h : resolve path = .ok names) : ∀ x ∈ names, '/' ∉ x.toList := by
  rw [eq_kept_of_resolve h]
  exact fun x hx => Path.pieces_no_slash (List.mem_filter.mp hx).1

theorem resolve_intercalate (hne : names ≠ []) (hnames : ∀ x ∈ names, IsName x)
    (hslash : ∀ x ∈ names, '/' ∉ x.toList) : resolve ("/".intercalate names) = .ok names := by
  have hpieces := Path.pieces_intercalate hne hslash
  have hleads : ∀ x ∈ names, OsPath.leads x = true := fun x hx =>
    Path.leads_iff.mpr ⟨(hnames x hx).nonempty, (hnames x hx).notHere⟩
  refine resolve_eq_ok_iff.mpr ⟨?_, ?_, ?_, ?_⟩
  · intro hempty
    rw [hempty] at hpieces
    exact (hnames "" (hpieces ▸ List.mem_singleton_self "")).nonempty rfl
  · rw [hpieces]
    cases names with
    | nil => exact absurd rfl hne
    | cons x rest => exact ⟨x, rfl, hleads x List.mem_cons_self⟩
  · rw [hpieces]
    exact fun hup => (hnames ".." hup).notUp rfl
  · rw [Path.kept, hpieces, List.filter_eq_self.mpr hleads]

theorem location_eq_ok {p : OsPath} (h : s.location path = .ok p) :
    resolve path = .ok (Path.kept path) ∧ p = s.filePath (Path.kept path) := by
  unfold location at h
  cases hnames : resolve path with
  | error e =>
    rw [hnames] at h
    cases h
  | ok names =>
    obtain rfl := eq_kept_of_resolve hnames
    rw [hnames] at h
    cases h
    exact ⟨rfl, rfl⟩

theorem location_of_resolve (h : resolve path = .ok names) : s.location path = .ok (s.filePath names) := by
  rw [location, h]
  rfl

/-! ## The text of a location -/

theorem pieces_text_filePath (hne : names ≠ []) (hslash : ∀ x ∈ names, '/' ∉ x.toList) :
    Path.pieces (s.filePath names).text = s.basePath.stem ++ names := by
  refine Path.pieces_intercalate (by simp [filePath, OsPath.join_eq, hne]) fun x hx => ?_
  rcases List.mem_append.mp hx with hstem | hname
  · exact Path.pieces_no_slash ((stem_prefix_pieces s.basePath).subset hstem)
  · exact hslash x hname

theorem stem_cases (s : Storage) :
    ((Path.pieces s.base).getLast? = some "" ∧ Path.pieces s.base = s.basePath.stem ++ [""]) ∨
      ((Path.pieces s.base).getLast? ≠ some "" ∧ Path.pieces s.base = s.basePath.stem) := by
  have hpieces : s.basePath.pieces = Path.pieces s.base := rfl
  unfold OsPath.stem
  rw [hpieces]
  by_cases hlast : (Path.pieces s.base).getLast? = some ""
  · obtain ⟨init, hinit⟩ := List.getLast?_eq_some_iff.mp hlast
    left
    rw [if_pos hlast, hinit, List.dropLast_concat]
    exact ⟨List.getLast?_concat, rfl⟩
  · right
    rw [if_neg hlast]
    exact ⟨hlast, rfl⟩

theorem text_filePath (hne : names ≠ []) : (s.filePath names).text =
    s.base ++ (if (Path.pieces s.base).getLast? = some "" then "" else "/") ++
      "/".intercalate names := by
  have hbase : "/".intercalate (Path.pieces s.base) = s.base := Path.intercalate_pieces s.base
  show "/".intercalate (s.basePath.stem ++ names) = _
  obtain ⟨hlast, hpieces⟩ | ⟨hlast, hpieces⟩ := s.stem_cases
  · rw [if_pos hlast, ← hbase, hpieces]
    by_cases hnil : s.basePath.stem = []
    · simp [hnil]
    · rw [Path.intercalate_append hnil hne, Path.intercalate_append hnil (by simp)]
      simp
  · have hsome : s.basePath.stem ≠ [] := hpieces ▸ Path.pieces_ne_nil s.base
    rw [if_neg hlast, Path.intercalate_append hsome hne, ← hpieces, hbase]

/-- Part by part, the names come behind the base. -/
theorem parts_text_filePath (hne : names ≠ []) (hnames : ∀ x ∈ names, IsName x)
    (hslash : ∀ x ∈ names, '/' ∉ x.toList) :
    Path.parts (s.filePath names).text = Path.parts s.base ++ names.map .name := by
  have htext := pieces_text_filePath (s := s) hne hslash
  have hmap := Path.filterMap_part? hnames
  obtain ⟨hlast, hpieces⟩ | ⟨hlast, hpieces⟩ := s.stem_cases
  · cases hstem : s.basePath.stem with
    | nil =>
      -- the base is the empty text
      rw [hstem] at hpieces htext
      obtain ⟨x, rest, rfl⟩ := List.exists_cons_of_ne_nil hne
      have hx := hnames x List.mem_cons_self
      rw [Path.parts_eq hpieces, Path.parts_eq htext, Path.start_of_isName hx]
      simpa [Path.start] using Path.filterMap_part? fun y hy => hnames y (List.mem_cons_of_mem x hy)
    | cons first init =>
      rw [hstem, List.cons_append] at hpieces htext
      have hmore : (init ++ names).isEmpty = (init ++ [""]).isEmpty := by
        cases init <;> simp [hne]
      rw [Path.parts_eq hpieces, Path.parts_eq htext, hmore]
      simp [hmap, Path.part?]
  · obtain ⟨first, rest, hstem⟩ := List.exists_cons_of_ne_nil (hpieces ▸ Path.pieces_ne_nil s.base)
    rw [hpieces, hstem] at hlast
    rw [hstem] at hpieces
    rw [hstem, List.cons_append] at htext
    have hstart : Path.start first (rest ++ names).isEmpty = Path.start first rest.isEmpty := by
      cases rest with
      | nil =>
        have hfirst : first ≠ "" := by simpa using hlast
        simp [Path.start, hfirst]
      | cons y ys => rfl
    rw [Path.parts_eq hpieces, Path.parts_eq htext, hstart, List.filterMap_append, hmap,
      List.append_assoc]

variable {p q : OsPath} {path' : String}

theorem names_of_location (h : s.location path = .ok p) :
    Path.kept path ≠ [] ∧ ∀ x ∈ Path.kept path, IsName x ∧ '/' ∉ x.toList := by
  obtain ⟨hok, -⟩ := location_eq_ok h
  obtain ⟨hne, hnames⟩ := resolve_eq_ok hok
  exact ⟨hne, fun x hx => ⟨hnames x hx, no_slash_of_resolve hok x hx⟩⟩

theorem text_location (h : s.location path = .ok p) : p.text =
    s.base ++ (if (Path.pieces s.base).getLast? = some "" then "" else "/") ++
      "/".intercalate (Path.kept path) := by
  rw [(location_eq_ok h).2, text_filePath (names_of_location h).1]

theorem parts_location (h : s.location path = .ok p) :
    Path.parts p.text = Path.parts s.base ++ (Path.kept path).map .name := by
  obtain ⟨hne, hnames⟩ := names_of_location h
  rw [(location_eq_ok h).2]
  exact parts_text_filePath hne (fun x hx => (hnames x hx).1) fun x hx => (hnames x hx).2

theorem location_intercalate (h : s.location path = .ok p) :
    s.location ("/".intercalate (Path.kept path)) = .ok p := by
  obtain ⟨hne, hnames⟩ := names_of_location h
  rw [(location_eq_ok h).2]
  apply location_of_resolve
  exact resolve_intercalate hne (fun x hx => (hnames x hx).1) fun x hx => (hnames x hx).2

/-- Two locations have one text just if their names agree. -/
theorem text_location_inj (h : s.location path = .ok p) (h' : s.location path' = .ok q) :
    p.text = q.text ↔ Path.kept path = Path.kept path' := by
  constructor
  · intro htext
    obtain ⟨hne, hnames⟩ := names_of_location h
    obtain ⟨hne', hnames'⟩ := names_of_location h'
    have hpieces := pieces_text_filePath (s := s) hne fun x hx => (hnames x hx).2
    have hpieces' := pieces_text_filePath (s := s) hne' fun x hx => (hnames' x hx).2
    rw [← (location_eq_ok h).2, htext] at hpieces
    rw [← (location_eq_ok h').2, hpieces] at hpieces'
    exact List.append_cancel_left hpieces'
  · intro hkept
    rw [(location_eq_ok h).2, (location_eq_ok h').2, hkept]

/-- And the same parts. -/
theorem parts_location_inj (h : s.location path = .ok p) (h' : s.location path' = .ok q) :
    Path.parts p.text = Path.parts q.text ↔ Path.kept path = Path.kept path' := by
  rw [parts_location h, parts_location h', List.append_right_inj]
  apply List.map_inj_right
  intro x y hxy
  cases hxy
  rfl

end Storage

end ResumableUpload
