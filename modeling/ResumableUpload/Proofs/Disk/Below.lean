import ResumableUpload.Proofs.Disk.Opening
import ResumableUpload.Proofs.Disk.Walks

/-
  Below — files below the base of a storage

  A storage path stands for names, and where no link lies below the base the
  names are the location: what a storage opens, deletes or measures lies at its
  base followed by the names, and nowhere else. Links above the base may be
  there, and are followed.

  What is held:
    1. `IsName` — a name that leads one directory down.
    2. `Storage.Rooted` — the base of a storage, with no link below it.
    3. `Disk.Way` — the directories that names lead through.
    4. `Steady` — no link comes, and no directory and no link goes.
    5. `emptyBase` — a disk with nothing but a base.

  What is proved:
    1. `resolve_eq_ok` — a storage path stands for names.
    2. `tread_way`, `tread_names`, `walk_names` — where names lead.
    3. `find_steady`, `Rooted.steady` — the base stays where it is.
    4. `Clear.locate_eq`, `Rooted.locate`, `Rooted.locateName`,
       `Rooted.locateFile` — what look-ups of the file that names stand for come
       to.
-/

namespace ResumableUpload

/-- A name leads one directory down. -/
structure IsName (x : String) : Prop where
  nonempty : x ≠ ""
  notHere : x ≠ "."
  notUp : x ≠ ".."

namespace Path

theorem isName_of_part? {piece x : String} (h : part? piece = some (.name x)) : IsName x := by
  unfold part? at h
  split at h
  · cases h
  · rename_i hskip
    split at h
    · cases h
    · rename_i hup
      cases h
      exact ⟨fun hx => hskip (.inl hx), fun hx => hskip (.inr hx), hup⟩

theorem isName_of_parts {path x : String} (h : .name x ∈ parts path) : IsName x := by
  unfold parts at h
  split at h
  · cases h
  · rename_i first rest _
    rcases List.mem_append.mp h with h | h
    · split at h
      · split at h <;> simp at h
      · split at h
        · simp at h
        · exact isName_of_part? (Option.mem_toList.mp h)
    · obtain ⟨piece, -, hpart⟩ := List.mem_filterMap.mp h
      exact isName_of_part? hpart

theorem splitSlash_ne_nil (chars : List Char) : splitSlash chars ≠ [] := by
  cases chars with
  | nil => simp [splitSlash]
  | cons c cs =>
    unfold splitSlash
    split
    · simp
    · split <;> simp

theorem pieces_cases {path : String} (hpath : path ≠ "") :
    (∃ rest, pieces path = "" :: rest ∧ rest ≠ []) ∨
      ∃ first rest, pieces path = first :: rest ∧ first ≠ "" := by
  unfold pieces
  cases hchars : path.toList with
  | nil => exact absurd (String.toList_eq_nil_iff.mp hchars) hpath
  | cons c cs =>
    unfold splitSlash
    split
    · exact .inl ⟨_, rfl, by simpa using splitSlash_ne_nil cs⟩
    · right
      split
      · exact ⟨_, _, rfl, by simp⟩
      · exact ⟨_, _, rfl, by simp⟩

theorem parts_ne_nil {path : String} (hpath : path ≠ "") : parts path ≠ [] := by
  obtain ⟨rest, hpieces, hrest⟩ | ⟨first, rest, hpieces, hfirst⟩ := pieces_cases hpath
  · have hmore : rest.isEmpty = false := by simpa using hrest
    simp [parts, hpieces, hmore]
  · by_cases hhere : first = "."
    · simp [parts, hpieces, hhere]
    · by_cases hup : first = ".." <;> simp [parts, hpieces, hfirst, hhere, part?, hup]

theorem names_of_mapM {ps : List Part} {names : List String} (h : ps.mapM Part.name? = some names) :
    names.length = ps.length ∧ ∀ x ∈ names, .name x ∈ ps := by
  induction ps generalizing names with
  | nil =>
    simp at h
    simp [h]
  | cons part ps ih =>
    simp only [List.mapM_cons, Option.bind_eq_bind, Option.bind_eq_some_iff, Option.pure_def,
      Option.some.injEq] at h
    obtain ⟨x, hx, more, hmore, rfl⟩ := h
    obtain ⟨hlength, hmem⟩ := ih hmore
    have hpart : part = .name x := by
      cases part <;> simp [Part.name?] at hx
      rw [hx]
    refine ⟨by simp [hlength], ?_⟩
    intro y hy
    rcases List.mem_cons.mp hy with rfl | hy
    · rw [hpart]
      exact List.mem_cons_self
    · exact List.mem_cons_of_mem _ (hmem y hy)

end Path

/-- A storage path stands for names, one at least. -/
theorem Storage.resolve_eq_ok {path : String} {names : Location}
    (h : Storage.resolve path = .ok names) : names ≠ [] ∧ ∀ x ∈ names, IsName x := by
  unfold Storage.resolve at h
  split at h
  · cases h
  · rename_i hpath
    split at h
    · cases h
    · rename_i found hnames
      cases h
      obtain ⟨hlength, hmem⟩ := Path.names_of_mapM hnames
      refine ⟨?_, fun x hx => Path.isName_of_parts (hmem x hx)⟩
      rintro rfl
      exact Path.parts_ne_nil hpath (List.eq_nil_of_length_eq_zero hlength.symm)

/-! ## Where names lead -/

namespace Disk

/-- The names are no longer than a directory takes them, and all but the last are directories. -/
def Way (d : Disk) : Location → List String → Prop
  | _, [] => True
  | dir, x :: rest =>
    x.utf8ByteSize ≤ maxNameBytes ∧ (rest ≠ [] → d.get? (dir ++ [x]) = some .directory) ∧
      d.Way (dir ++ [x]) rest

/-- What lies at a location. -/
def lies (d : Disk) (loc : Location) : Place :=
  match d.get? loc with
  | none => .absent loc
  | some e => .present loc e

/-- Where a walk that follows no link stops. -/
def Place.stop : Place → Stop
  | .present loc e => .reached loc e
  | .absent loc => .free loc

variable {d d' : Disk} {dir : Location} {names : List String}

/-- Names lead to what lies behind them, if the way is there and no link has to be followed at its end. -/
theorem tread_way (hway : d.Way dir names) (hnames : ∀ x ∈ names, IsName x) (hne : names ≠ [])
    (hend : ∀ target, d.get? (dir ++ names) ≠ some (.link target)) (follow : Bool) :
    d.tread follow dir names = .ok (d.lies (dir ++ names)).stop := by
  induction names generalizing dir with
  | nil => exact absurd rfl hne
  | cons x rest ih =>
    obtain ⟨hshort, hdir, hrest⟩ := hway
    have hx := hnames x List.mem_cons_self
    rw [tread_enter hx.nonempty hx.notHere hx.notUp (Nat.not_lt.mpr hshort)]
    by_cases hlast : rest = []
    · subst hlast
      unfold lies
      cases hthere : d.get? (dir ++ [x]) with
      | none => rfl
      | some e =>
        cases e with
        | directory => rfl
        | file serial content => rfl
        | link target => exact absurd hthere (hend target)
    · have hloc : dir ++ x :: rest = dir ++ [x] ++ rest := by simp
      rw [hdir hlast, hloc]
      rw [hloc] at hend
      exact ih hrest (fun y hy => hnames y (List.mem_cons_of_mem x hy)) hlast hend

/-- Where no link lies, names lead to what lies behind them if the way is there, and else nowhere. -/
theorem tread_names (hplain : ∀ ns target, d.get? (dir ++ ns) ≠ some (.link target))
    (hnames : ∀ x ∈ names, IsName x) (hne : names ≠ []) (follow : Bool) :
    (d.Way dir names → d.tread follow dir names = .ok (d.lies (dir ++ names)).stop) ∧
      (¬ d.Way dir names → ∃ cause, d.tread follow dir names = .error cause) := by
  refine ⟨fun hway => tread_way hway hnames hne (hplain names) follow, fun hnot => ?_⟩
  induction names generalizing dir with
  | nil => exact absurd rfl hne
  | cons x rest ih =>
    have hx := hnames x List.mem_cons_self
    by_cases hlong : maxNameBytes < x.utf8ByteSize
    · refine ⟨.nameTooLong, ?_⟩
      rw [tread, if_neg hx.nonempty, if_neg hx.notHere, if_neg hx.notUp, if_pos hlong]
    rw [tread_enter hx.nonempty hx.notHere hx.notUp hlong]
    have hshort : x.utf8ByteSize ≤ maxNameBytes := by omega
    by_cases hlast : rest = []
    · subst hlast
      exact absurd ⟨hshort, fun h => absurd rfl h, trivial⟩ hnot
    · have hmore : rest.isEmpty = false := by simpa using hlast
      cases hthere : d.get? (dir ++ [x]) with
      | none => exact ⟨.notFound, by simp [enter, hmore]⟩
      | some e =>
        cases e with
        | directory =>
          apply ih _ (fun y hy => hnames y (List.mem_cons_of_mem x hy)) hlast
          · exact fun hway => hnot ⟨hshort, fun _ => hthere, hway⟩
          · intro ns target
            rw [List.append_assoc]
            exact hplain ([x] ++ ns) target
        | file serial content => exact ⟨.notDirectory, by simp [enter, hmore]⟩
        | link target => exact absurd hthere (hplain [x] target)

theorem Way.mono (h : d.Way dir names)
    (hdirs : ∀ loc, d.get? loc = some .directory → d'.get? loc = some .directory) :
    d'.Way dir names := by
  induction names generalizing dir with
  | nil => trivial
  | cons x rest ih => exact ⟨h.1, fun hmore => hdirs _ (h.2.1 hmore), ih h.2.2⟩

/-- What comes of names, where no link lies. -/
theorem walk_names (hplain : ∀ ns target, d.get? (dir ++ ns) ≠ some (.link target))
    (hnames : ∀ x ∈ names, IsName x) (hne : names ≠ []) (follow : Bool) (n : Nat) :
    (d.Way dir names → d.walk follow n dir names = .ok (d.lies (dir ++ names))) ∧
      (¬ d.Way dir names → ∃ cause, d.walk follow n dir names = .error cause) := by
  obtain ⟨hyes, hno⟩ := tread_names hplain hnames hne follow
  constructor
  · intro hway
    rw [walk, hyes hway]
    cases d.lies (dir ++ names) <;> rfl
  · intro hnot
    obtain ⟨cause, hcause⟩ := hno hnot
    exact ⟨cause, by rw [walk, hcause]⟩

theorem locateFileFrom_of_names (hplain : ∀ ns target, d.get? (dir ++ ns) ≠ some (.link target))
    (hnames : ∀ x ∈ names, IsName x) (hne : names ≠ []) (n : Nat) :
    (d.Way dir names → d.locateFileFrom n dir ⟨names⟩ = .ok (d.lies (dir ++ names))) ∧
      (¬ d.Way dir names → ∃ cause, d.locateFileFrom n dir ⟨names⟩ = .error cause) := by
  obtain ⟨hyes, hno⟩ := tread_names hplain hnames hne true
  have hempty : "" ∉ names := fun hmem => (hnames "" hmem).nonempty rfl
  have hfrom := locateFileFrom_names d n dir [] hne hempty
  rw [show pieceSteps [] ++ names = names from rfl] at hfrom
  constructor
  · intro hway
    rw [hyes hway] at hfrom
    refine hfrom.trans ?_
    cases d.lies (dir ++ names) <;> rfl
  · intro hnot
    obtain ⟨cause, hcause⟩ := hno hnot
    rw [hcause] at hfrom
    exact ⟨cause, hfrom⟩

/-! ## What stays -/

/-- No directory goes, and no link comes or goes. -/
structure Steady (d d' : Disk) : Prop where
  directories : ∀ loc, d.get? loc = some .directory → d'.get? loc = some .directory
  links : ∀ loc target, d'.get? loc = some (.link target) ↔ d.get? loc = some (.link target)

theorem Steady.refl (d : Disk) : Steady d d := ⟨fun _ h => h, fun _ _ => Iff.rfl⟩

theorem Steady.trans {a b c : Disk} (hab : Steady a b) (hbc : Steady b c) : Steady a c :=
  ⟨fun loc h => hbc.directories loc (hab.directories loc h),
    fun loc target => (hbc.links loc target).trans (hab.links loc target)⟩

/-- A way that stopped at a directory, or at a link that has to be followed, stops there still. -/
theorem tread_steady (h : Steady d d') {follow : Bool} {cur : Location} {steps : List String}
    {x : Stop} (hx : d.tread follow cur steps = .ok x)
    (hcase : (∃ loc, x = .reached loc .directory) ∨ ∃ dir target rest, x = .detour dir target rest) :
    d'.tread follow cur steps = .ok x := by
  induction steps generalizing cur with
  | nil => exact hx
  | cons step rest ih =>
    rcases tread_cons step with ⟨cause, hstep⟩ | ⟨next, hstep⟩ | hstep
    · rw [hstep] at hx
      cases hx
    · rw [hstep] at hx ⊢
      exact ih hx
    rw [hstep] at hx ⊢
    cases hthere : d.get? (cur ++ [step]) with
    | none =>
      -- a name that was free may be taken by now
      rw [hthere] at hx
      cases rest <;> cases hx
      rcases hcase with ⟨loc, heq⟩ | ⟨dir, target, more, heq⟩ <;> cases heq
    | some e =>
      rw [hthere] at hx
      cases e with
      | directory =>
        rw [h.directories _ hthere]
        exact ih hx
      | file serial content =>
        cases rest <;> cases hx
        rcases hcase with ⟨loc, heq⟩ | ⟨dir, target, more, heq⟩ <;> cases heq
      | link target =>
        rw [(h.links _ target).mpr hthere]
        exact hx

theorem walk_steady (h : Steady d d') {hops : Nat} {cur base : Location} {steps : List String}
    (hwalk : d.walk true hops cur steps = .ok (.present base .directory)) :
    d'.walk true hops cur steps = .ok (.present base .directory) := by
  fun_induction walk d true hops cur steps with
  | case1 hops cur steps cause hstop => cases hwalk
  | case2 hops cur steps loc e hstop =>
    cases hwalk
    rw [walk, tread_steady h hstop (.inl ⟨base, rfl⟩)]
  | case3 hops cur steps loc hstop => cases hwalk
  | case4 cur steps dir target rest hstop => cases hwalk
  | case5 cur steps dir target rest hstop hops ih =>
    rw [walk, tread_steady h hstop (.inr ⟨dir, target, rest, rfl⟩)]
    exact ih hwalk

theorem find_eq_directory {p : OsPath} {loc : Location} : d.find p = .ok (loc, .directory) ↔
    p.check = .ok () ∧ d.walk true maxLinks [] p.lookupSteps = .ok (.present loc .directory) := by
  unfold find locate
  cases p.check with
  | error cause => simp
  | ok u =>
    cases d.walk true maxLinks [] p.lookupSteps with
    | error cause => simp
    | ok place => cases place <;> simp

theorem find_steady (h : Steady d d') {p : OsPath} {loc : Location}
    (hfound : d.find p = .ok (loc, .directory)) : d'.find p = .ok (loc, .directory) := by
  obtain ⟨hcheck, hwalk⟩ := find_eq_directory.mp hfound
  exact find_eq_directory.mpr ⟨hcheck, walk_steady h hwalk⟩

end Disk

/-! ## The base of a storage -/

/-- The pieces of a path that names are put behind. -/
def OsPath.stem (p : OsPath) : List String :=
  if p.pieces.getLast? = some "" then p.pieces.dropLast else p.pieces

theorem OsPath.join_eq (p : OsPath) (names : List String) : p.join names = ⟨p.stem ++ names⟩ := rfl

theorem OsPath.pieceSteps_stem (p : OsPath) : Disk.pieceSteps p.stem = Disk.pieceSteps p.pieces := by
  unfold stem
  split
  · rename_i hlast
    obtain ⟨init, hinit⟩ := List.getLast?_eq_some_iff.mp hlast
    simp [Disk.pieceSteps, hinit]
  · rfl

/-- The base of a storage is a directory, and no link lies below it. -/
structure Storage.Rooted (s : Storage) (d : Disk) (base : Location) : Prop where
  found : d.find s.basePath = .ok (base, .directory)
  plain : ∀ names target, d.get? (base ++ names) ≠ some (.link target)

/-- The path to a file is looked up, and its way is there. -/
structure Storage.Clear (s : Storage) (d : Disk) (base names : Location) : Prop where
  check : (s.filePath names).check = .ok ()
  way : d.Way base names

namespace Storage

variable {s : Storage} {d d' : Disk} {base names : Location}

theorem Rooted.steady (h : s.Rooted d base) (hsteady : Disk.Steady d d') : s.Rooted d' base :=
  ⟨Disk.find_steady hsteady h.found,
    fun names target hlink => h.plain names target ((hsteady.links _ _).mp hlink)⟩

theorem Clear.steady (h : s.Clear d base names) (hsteady : Disk.Steady d d') : s.Clear d' base names :=
  ⟨h.check, h.way.mono hsteady.directories⟩

theorem walk_stem (hfound : d.find s.basePath = .ok (base, .directory)) :
    d.walk true Disk.maxLinks [] (Disk.pieceSteps s.basePath.stem) = .ok (.present base .directory) := by
  obtain ⟨-, hwalk⟩ := Disk.find_eq_directory.mp hfound
  have hsteps := Disk.walk_lookupSteps.mp hwalk
  rw [OsPath.pieceSteps_stem]
  unfold OsPath.steps at hsteps
  split at hsteps
  · -- the empty step leads nowhere
    rw [Disk.walk] at hsteps
    simp [Disk.tread] at hsteps
  · exact hsteps

theorem Rooted.of_no_links (hfound : d.find s.basePath = .ok (base, .directory))
    (hnone : ∀ x ∈ d.entries, x.2.isLink = false) : s.Rooted d base := by
  refine ⟨hfound, fun names target hlink => ?_⟩
  unfold Disk.get? at hlink
  split at hlink
  · cases hlink
  · obtain ⟨before, after, hentries, -⟩ := List.lookup_eq_some_iff.mp hlink
    have hno := hnone (base ++ names, .link target) (by rw [hentries]; simp)
    cases hno

/-- What a look-up comes to, that has to check the path and to find the way. -/
def Clear.Decides (s : Storage) (d : Disk) (base names : Location)
    (x : Except OsError Disk.Place) : Prop :=
  (s.Clear d base names → x = .ok (d.lies (base ++ names))) ∧
    (¬ s.Clear d base names → ∃ cause, x = .error cause)

theorem Clear.decides {x y : Except OsError Disk.Place}
    (hok : (s.filePath names).check = .ok () → x = y)
    (herror : ∀ cause, (s.filePath names).check = .error cause → x = .error cause)
    (hyes : d.Way base names → y = .ok (d.lies (base ++ names)))
    (hno : ¬ d.Way base names → ∃ cause, y = .error cause) : Clear.Decides s d base names x := by
  constructor
  · intro hclear
    rw [hok hclear.check]
    exact hyes hclear.way
  · intro hnot
    cases hcheck : (s.filePath names).check with
    | error cause => exact ⟨cause, herror cause hcheck⟩
    | ok u =>
      rw [hok hcheck]
      exact hno fun hway => hnot ⟨hcheck, hway⟩

theorem walk_steps (hfound : d.find s.basePath = .ok (base, .directory))
    (hnames : ∀ x ∈ names, IsName x) (hne : names ≠ []) (follow : Bool) : ∃ n,
      d.walk follow Disk.maxLinks [] (s.filePath names).steps = d.walk follow n base names ∧
      (s.filePath names).lookupSteps = (s.filePath names).steps := by
  have hempty : "" ∉ names := fun hmem => (hnames "" hmem).nonempty rfl
  obtain ⟨hslash, hsteps⟩ := Disk.steps_append_names s.basePath.stem hne hempty
  obtain ⟨n, hn⟩ := Disk.walk_append (walk_stem hfound)
  refine ⟨n, ?_, ?_⟩
  · rw [filePath, OsPath.join_eq, hsteps]
    exact hn follow names hne
  · rw [filePath, OsPath.join_eq, OsPath.lookupSteps, hslash, if_neg Bool.false_ne_true]

/-- A path that is looked up leads to what lies behind its names, if the way is there and no link has to be
followed at its end. -/
theorem Clear.locate_eq (hclear : s.Clear d base names)
    (hfound : d.find s.basePath = .ok (base, .directory)) (hnames : ∀ x ∈ names, IsName x)
    (hne : names ≠ []) (hend : ∀ target, d.get? (base ++ names) ≠ some (.link target))
    (follow : Bool) : d.locate follow (s.filePath names) = .ok (d.lies (base ++ names)) := by
  obtain ⟨n, hn, hlookup⟩ := walk_steps hfound hnames hne follow
  rw [Disk.locate, hclear.check, hlookup, hn, Disk.walk,
    Disk.tread_way hclear.way hnames hne hend follow]
  cases d.lies (base ++ names) <;> rfl

theorem Rooted.locate (h : s.Rooted d base) (hnames : ∀ x ∈ names, IsName x) (hne : names ≠ [])
    (follow : Bool) : Clear.Decides s d base names (d.locate follow (s.filePath names)) := by
  obtain ⟨n, hn, hlookup⟩ := walk_steps h.found hnames hne follow
  obtain ⟨hyes, hno⟩ := Disk.walk_names h.plain hnames hne follow n
  refine Clear.decides ?_ ?_ hyes hno
  · intro hcheck
    simp only [Disk.locate, hcheck, hlookup, hn]
  · intro cause hcheck
    simp only [Disk.locate, hcheck]

theorem Rooted.locateName (h : s.Rooted d base) (hnames : ∀ x ∈ names, IsName x) (hne : names ≠ []) :
    Clear.Decides s d base names (d.locateName (s.filePath names)) := by
  obtain ⟨n, hn, -⟩ := walk_steps h.found hnames hne false
  obtain ⟨hyes, hno⟩ := Disk.walk_names h.plain hnames hne false n
  refine Clear.decides ?_ ?_ hyes hno
  · intro hcheck
    simp only [Disk.locateName, hcheck, hn]
  · intro cause hcheck
    simp only [Disk.locateName, hcheck]

theorem Rooted.locateFile (h : s.Rooted d base) (hnames : ∀ x ∈ names, IsName x) (hne : names ≠ []) :
    Clear.Decides s d base names (d.locateFile (s.filePath names)) := by
  have hempty : "" ∉ names := fun hmem => (hnames "" hmem).nonempty rfl
  obtain ⟨n, hn⟩ := Disk.locateFileFrom_append hne hempty (walk_stem h.found)
  obtain ⟨hyes, hno⟩ := Disk.locateFileFrom_of_names h.plain hnames hne n
  have hfile : d.locateFileFrom Disk.maxLinks [] (s.filePath names) =
      d.locateFileFrom n base ⟨names⟩ := hn
  refine Clear.decides ?_ ?_ hyes hno
  · intro hcheck
    simp only [Disk.locateFile, hcheck, hfile]
  · intro cause hcheck
    simp only [Disk.locateFile, hcheck]

end Storage

/-- A tree with the base of a storage and nothing else. -/
def emptyBase : Disk := (Storage.create .empty "up").1

theorem emptyBase_rooted : (Storage.mk "up").Rooted emptyBase ["up"] :=
  .of_no_links rfl (by decide)

theorem emptyBase_free {names : Location} (hne : names ≠ []) :
    emptyBase.get? (["up"] ++ names) = none := by
  cases names with
  | nil => exact absurd rfl hne
  | cons x rest =>
    show (if ["up"] ++ x :: rest = [] then _ else [(["up"], Entry.directory)].lookup _) = none
    simp [List.lookup_cons]

end ResumableUpload
