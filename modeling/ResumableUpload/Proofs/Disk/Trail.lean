import ResumableUpload.Proofs.Disk.Tree

/-
  Trail — what a look-up of a file comes to, and why it fails

  Below the base of a storage no link lies, so a look-up takes the names of a
  file one by one. It fails for the first thing in its way: a name that is too
  long, a file where a directory is needed, or nothing at all. All that a
  storage asks of the disk starts with one and the same look-up.

  What is held:
    1. `Disk.trail` — where names lead from a directory.
    2. `Storage.look` — what the look-up of a file comes to.
    3. `Disk.HoldsFile`, `Disk.Blocked` — a file lies there, or on the way there.

  What is proved:
    1. `locate_eq`, `locateName_eq`, `locateFile_eq` — the look-ups of the disk.
    2. `trail_append` — names lead on from a directory.
    3. `trail_of_directory`, `trail_of_blocked`, `trail_of_missing` — what short
       names lead to.
    4. `delete_leaves_no_file` — a deletion that does not fail leaves no file.
-/

namespace ResumableUpload

namespace Disk

/-- Where names lead from a directory, where no link lies. -/
def trail (d : Disk) : Location → List String → Except OsError Place
  | dir, [] => .ok (.present dir .directory)
  | dir, x :: rest =>
    if maxNameBytes < x.utf8ByteSize then .error .nameTooLong
    else
      match d.get? (dir ++ [x]) with
      | some .directory => d.trail (dir ++ [x]) rest
      | some e => if rest.isEmpty then .ok (.present (dir ++ [x]) e) else .error .notDirectory
      | none => if rest.isEmpty then .ok (.absent (dir ++ [x])) else .error .notFound

variable {d : Disk} {dir : Location} {names : List String}

theorem tread_eq_trail (hplain : ∀ ns target, d.get? (dir ++ ns) ≠ some (.link target))
    (hnames : ∀ x ∈ names, IsName x) (follow : Bool) :
    d.tread follow dir names = (d.trail dir names).map Place.stop := by
  induction names generalizing dir with
  | nil => rfl
  | cons x rest ih =>
    have hx := hnames x List.mem_cons_self
    rw [trail]
    by_cases hlong : maxNameBytes < x.utf8ByteSize
    · rw [tread, if_neg hx.nonempty, if_neg hx.notHere, if_neg hx.notUp, if_pos hlong, if_pos hlong]
      rfl
    rw [tread_enter hx.nonempty hx.notHere hx.notUp hlong, if_neg hlong]
    cases hthere : d.get? (dir ++ [x]) with
    | none => cases rest <;> rfl
    | some e =>
      cases e with
      | directory =>
        apply ih
        · intro ns target
          rw [List.append_assoc]
          exact hplain ([x] ++ ns) target
        · exact fun y hy => hnames y (List.mem_cons_of_mem x hy)
      | file serial content => cases rest <;> rfl
      | link target => exact absurd hthere (hplain [x] target)

theorem walk_eq_trail (hplain : ∀ ns target, d.get? (dir ++ ns) ≠ some (.link target))
    (hnames : ∀ x ∈ names, IsName x) (follow : Bool) (n : Nat) :
    d.walk follow n dir names = d.trail dir names := by
  rw [walk, tread_eq_trail hplain hnames follow]
  cases d.trail dir names with
  | error cause => rfl
  | ok place => cases place <;> rfl

theorem locateFileFrom_eq_trail (hplain : ∀ ns target, d.get? (dir ++ ns) ≠ some (.link target))
    (hnames : ∀ x ∈ names, IsName x) (hne : names ≠ []) (n : Nat) :
    d.locateFileFrom n dir ⟨names⟩ = d.trail dir names := by
  have hempty : "" ∉ names := fun hmem => (hnames "" hmem).nonempty rfl
  have hfrom := locateFileFrom_names d n dir [] hne hempty
  rw [show pieceSteps [] ++ names = names from rfl, tread_eq_trail hplain hnames true] at hfrom
  refine hfrom.trans ?_
  cases d.trail dir names with
  | error cause => rfl
  | ok place => cases place <;> rfl

/-- Names lead on from a directory, if they are short enough to lead to it. -/
theorem trail_append {ns : List String}
    (hdirs : ∀ ms, ms <+: ns → ms ≠ [] → d.get? (dir ++ ms) = some .directory)
    (rest : List String) : d.trail dir (ns ++ rest) =
      if ∀ x ∈ ns, x.utf8ByteSize ≤ maxNameBytes then d.trail (dir ++ ns) rest
      else .error .nameTooLong := by
  induction ns generalizing dir with
  | nil => simp
  | cons x ns ih =>
    rw [List.cons_append, trail]
    by_cases hlong : maxNameBytes < x.utf8ByteSize
    · have hnot : ¬ ∀ y ∈ x :: ns, y.utf8ByteSize ≤ maxNameBytes := fun hall =>
        absurd (hall x List.mem_cons_self) (Nat.not_le.mpr hlong)
      rw [if_pos hlong, if_neg hnot]
    · rw [if_neg hlong, hdirs [x] (by simp) (by simp)]
      dsimp only
      rw [ih, List.append_assoc]
      · have hshort : x.utf8ByteSize ≤ maxNameBytes := Nat.not_lt.mp hlong
        simp [hshort]
      · intro ms hpre _
        rw [List.append_assoc]
        exact hdirs ([x] ++ ms) (by simpa using hpre) (by simp)

/-- Names that fail go on to fail with more names behind them. -/
theorem trail_error_append {cause : OsError} (h : d.trail dir names = .error cause)
    (rest : List String) : d.trail dir (names ++ rest) = .error cause := by
  induction names generalizing dir with
  | nil => cases h
  | cons x names ih =>
    rw [trail] at h
    rw [List.cons_append, trail]
    split
    · rename_i hlong
      rwa [if_pos hlong] at h
    · rename_i hlong
      rw [if_neg hlong] at h
      cases hthere : d.get? (dir ++ [x]) with
      | none =>
        rw [hthere] at h
        cases names with
        | nil => cases h
        | cons y more => exact h
      | some e =>
        rw [hthere] at h
        cases e with
        | directory => exact ih h
        | _ =>
          cases names with
          | nil => cases h
          | cons y more => exact h

/-- A file lies at a location. -/
def HoldsFile (d : Disk) (loc : Location) : Prop :=
  ∃ serial content, d.get? loc = some (.file serial content)

/-- A file lies on the way that names lead. -/
def Blocked (d : Disk) (dir : Location) (names : List String) : Prop :=
  ∃ ms, ms <+: names ∧ ms ≠ names ∧ d.HoldsFile (dir ++ ms)

theorem not_blocked_of_concat {d : Disk} {dir : Location} {names : List String} {x : String}
    (h : ¬ d.Blocked dir (names ++ [x])) : ¬ d.Blocked dir names ∧ ¬ d.HoldsFile (dir ++ names) := by
  have hpre : names <+: names ++ [x] := List.prefix_append names [x]
  constructor
  · rintro ⟨ms, hms, -, hfile⟩
    refine h ⟨ms, hms.trans hpre, ?_, hfile⟩
    rintro rfl
    have hlength := hms.length_le
    rw [List.length_append, List.length_singleton] at hlength
    omega
  · intro hfile
    exact h ⟨names, hpre, by simp, hfile⟩

end Disk

namespace Storage

variable {s : Storage} {d d' : Disk} {base names ns : Location} {path x : String}

theorem Tends.holdsFile (h : s.Tends base names d d') (hne : ns ≠ names) :
    d'.HoldsFile (base ++ ns) ↔ d.HoldsFile (base ++ ns) := by
  unfold Disk.HoldsFile
  by_cases hpre : ns <+: names
  · rcases h.way ns hpre hne with hsame | ⟨hnone, hdir⟩
    · rw [hsame]
    · simp [hnone, hdir]
  · rw [h.away ns hpre]

/-- What the look-up of a file comes to. -/
def look (s : Storage) (d : Disk) (base names : Location) : Except OsError Disk.Place :=
  match (s.filePath names).check with
  | .error cause => .error cause
  | .ok () => d.trail base names

theorem Rooted.locate_eq (h : s.Rooted d base) (hnames : ∀ x ∈ names, IsName x) (hne : names ≠ [])
    (follow : Bool) : d.locate follow (s.filePath names) = s.look d base names := by
  obtain ⟨n, hn, hlookup⟩ := walk_steps h.found hnames hne follow
  unfold Disk.locate look
  cases (s.filePath names).check with
  | error cause => rfl
  | ok u =>
    dsimp only
    rw [hlookup, hn]
    exact Disk.walk_eq_trail h.plain hnames follow n

theorem Rooted.locateName_eq (h : s.Rooted d base) (hnames : ∀ x ∈ names, IsName x)
    (hne : names ≠ []) : d.locateName (s.filePath names) = s.look d base names := by
  obtain ⟨n, hn, -⟩ := walk_steps h.found hnames hne false
  unfold Disk.locateName look
  cases (s.filePath names).check with
  | error cause => rfl
  | ok u =>
    dsimp only
    rw [hn]
    exact Disk.walk_eq_trail h.plain hnames false n

theorem Rooted.locateFile_eq (h : s.Rooted d base) (hnames : ∀ x ∈ names, IsName x)
    (hne : names ≠ []) : d.locateFile (s.filePath names) = s.look d base names := by
  have hempty : "" ∉ names := fun hmem => (hnames "" hmem).nonempty rfl
  obtain ⟨n, hn⟩ := Disk.locateFileFrom_append hne hempty (walk_stem h.found)
  unfold Disk.locateFile look
  cases (s.filePath names).check with
  | error cause => rfl
  | ok u => exact hn.trans (Disk.locateFileFrom_eq_trail h.plain hnames hne n)

/-! ## Short names -/

/-- The names behind a directory are looked up in it. -/
theorem Grounded.trail_append (h : s.Grounded d base) (hdir : d.get? (base ++ ns) = some .directory)
    (rest : List String) : d.trail base (ns ++ rest) =
      if ∀ x ∈ ns, x.utf8ByteSize ≤ Disk.maxNameBytes then d.trail (base ++ ns) rest
      else .error .nameTooLong := by
  apply Disk.trail_append
  intro ms hpre _
  by_cases heq : ms = ns
  · rw [heq]
    exact hdir
  · exact h.directory_of_prefix hpre heq hdir

theorem trail_singleton (hshort : x.utf8ByteSize ≤ Disk.maxNameBytes) (dir : Location) :
    d.trail dir [x] = .ok (d.lies (dir ++ [x])) := by
  rw [Disk.trail, if_neg (Nat.not_lt.mpr hshort), Disk.lies]
  cases d.get? (dir ++ [x]) with
  | none => rfl
  | some e => cases e <;> rfl

/-- In a directory, a name leads to what lies there. -/
theorem Grounded.trail_of_directory (h : s.Grounded d base)
    (hshort : ∀ y ∈ ns ++ [x], y.utf8ByteSize ≤ Disk.maxNameBytes)
    (hdir : d.get? (base ++ ns) = some .directory) :
    d.trail base (ns ++ [x]) = .ok (d.lies (base ++ ns ++ [x])) := by
  rw [h.trail_append hdir [x], if_pos fun y hy => hshort y (List.mem_append_left _ hy)]
  exact trail_singleton (hshort x (by simp)) _

/-- Names lead nowhere behind a file. -/
theorem Grounded.trail_of_blocked (h : s.Grounded d base)
    (hshort : ∀ y ∈ names, y.utf8ByteSize ≤ Disk.maxNameBytes) (hblocked : d.Blocked base names) :
    d.trail base names = .error .notDirectory := by
  obtain ⟨ms, ⟨rest, rfl⟩, hne, serial, content, hfile⟩ := hblocked
  obtain ⟨ns, x, rfl, hdir⟩ := h.directory_of_file hfile
  have hmore : rest.isEmpty = false := by
    cases rest with
    | nil => exact absurd (List.append_nil _).symm hne
    | cons y rest => rfl
  rw [List.append_assoc, h.trail_append hdir, if_pos fun y hy => hshort y (by simp [hy])]
  rw [← List.append_assoc] at hfile
  have hx : ¬ Disk.maxNameBytes < x.utf8ByteSize := Nat.not_lt.mpr (hshort x (by simp))
  rw [List.singleton_append, Disk.trail, if_neg hx, hfile]
  simp [hmore]

/-- Where a directory is missing, names lead nowhere. -/
theorem Grounded.trail_of_missing (h : s.Grounded d base)
    (hshort : ∀ y ∈ ns ++ [x], y.utf8ByteSize ≤ Disk.maxNameBytes)
    (hfree : ¬ d.Blocked base (ns ++ [x])) (hmissing : d.get? (base ++ ns) ≠ some .directory) :
    d.trail base (ns ++ [x]) = .error .notFound := by
  induction ns using List.reverseRecOn generalizing x with
  | nil =>
    rw [List.append_nil] at hmissing
    exact absurd h.top hmissing
  | append_singleton ns y ih =>
    have hshort' : ∀ z ∈ ns ++ [y], z.utf8ByteSize ≤ Disk.maxNameBytes :=
      fun z hz => hshort z (List.mem_append_left _ hz)
    obtain ⟨hclear, hnofile⟩ := Disk.not_blocked_of_concat hfree
    by_cases hdir : d.get? (base ++ ns) = some .directory
    · -- the directory that is missing is the last one before the file
      have hnone : d.get? (base ++ ns ++ [y]) = none := by
        rw [List.append_assoc]
        cases hthere : d.get? (base ++ (ns ++ [y])) with
        | none => rfl
        | some e =>
          cases e with
          | directory => exact absurd hthere hmissing
          | link target => exact absurd hthere (h.plain _ target)
          | file serial content => exact absurd ⟨serial, content, hthere⟩ hnofile
      have hy : ¬ Disk.maxNameBytes < y.utf8ByteSize := Nat.not_lt.mpr (hshort' y (by simp))
      rw [List.append_assoc, h.trail_append hdir,
        if_pos fun z hz => hshort z (by simp [hz]), List.singleton_append, Disk.trail, if_neg hy, hnone]
      rfl
    · exact Disk.trail_error_append (ih hshort' hclear hdir) [x]

/-! ## Deletions -/

theorem check_ne_notFound (p : OsPath) : p.check ≠ .error .notFound := by
  unfold OsPath.check
  split
  · simp
  · split <;> simp

theorem Grounded.look_of_file (h : s.Grounded d base) {serial : Nat} {content : Content}
    (hfile : d.get? (base ++ names) = some (.file serial content)) :
    s.look d base names = .ok (.present (base ++ names) (.file serial content)) ∨
      ∃ cause, cause ≠ .notFound ∧ s.look d base names = .error cause := by
  unfold look
  cases hcheck : (s.filePath names).check with
  | error cause =>
    refine .inr ⟨cause, ?_, rfl⟩
    rintro rfl
    exact check_ne_notFound _ hcheck
  | ok u =>
    dsimp only
    obtain ⟨ns, x, rfl, hdir⟩ := h.directory_of_file hfile
    rw [h.trail_append hdir]
    split
    · by_cases hlong : Disk.maxNameBytes < x.utf8ByteSize
      · refine .inr ⟨.nameTooLong, by simp, ?_⟩
        rw [Disk.trail, if_pos hlong]
      · left
        rw [trail_singleton (Nat.not_lt.mp hlong), Disk.lies, List.append_assoc, hfile]
    · exact .inr ⟨.nameTooLong, by simp, rfl⟩

/-- A deletion that does not fail leaves no file. -/
theorem Grounded.delete_leaves_no_file (h : s.Grounded d base) (hpath : resolve path = .ok names)
    {deleted : Bool} (hdeleted : (s.delete d path).2 = .ok deleted) :
    (s.delete d path).1.contentOf? (base ++ names) = none := by
  obtain ⟨hsome, hnames⟩ := resolve_eq_ok hpath
  obtain ⟨-, herased, serial, content, hfile⟩ | ⟨hnot, hsame⟩ := delete_cases h hpath
  · rw [herased, Disk.contentOf?, Disk.get?_erase d (Disk.ne_nil_of_get? hfile), if_pos rfl]
  · rw [hsame, Disk.contentOf?]
    split
    · rename_i serial content hfile
      have hlocate := h.locate_eq hnames hsome false
      obtain hlook | ⟨cause, hcause, hlook⟩ := h.look_of_file hfile
      · -- what is found is deleted
        rw [hlook] at hlocate
        simp only [delete, hpath, Disk.remove, hlocate] at hnot
        exact absurd rfl hnot
      · rw [hlook] at hlocate
        simp only [delete, hpath, Disk.remove, hlocate] at hdeleted
        cases cause <;> first | exact absurd rfl hcause | cases hdeleted
    · rfl

end Storage

end ResumableUpload
