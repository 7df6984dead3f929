import ResumableUpload.Proofs.Disk.Trail

/-
  Outlook — what operations for a file come to

  What an operation for a file answers turns on little: whether its path is
  looked up at all, whether a file lies on the way, and what lies at its end.
  Which directories of the way are there already does not matter. Those that are
  missing are made before the file is opened; and where one is missing, a
  deletion finds no file, as in an empty directory.

  What is proved:
    1. `makeAll_of_blocked`, `makeAll_of_file`, `makeAll_of_free` — what the
       directories of a way come to.
    2. `makeWay_eq` — the storage makes just these.
    3. `openFile_eq` — what it is to open a file in a directory that is there.
    4. `delete_of_blocked`, `delete_of_free` — what a deletion comes to.
-/

namespace ResumableUpload

namespace Storage

variable {s : Storage} {d : Disk} {base ns names : Location} {x path : String}

/-- The names are short enough to be looked up. -/
def Short (names : Location) : Prop := ∀ x ∈ names, x.utf8ByteSize ≤ Disk.maxNameBytes

instance (names : Location) : Decidable (Short names) :=
  inferInstanceAs (Decidable (∀ x ∈ names, x.utf8ByteSize ≤ Disk.maxNameBytes))

theorem Short.of_prefix (h : Short names) (hpre : ns <+: names) : Short ns :=
  fun x hx => h x (hpre.subset hx)

theorem look_of_checked (hcheck : (s.filePath names).check = .ok ()) :
    s.look d base names = d.trail base names := by
  rw [look, hcheck]

theorem look_of_unchecked {cause : OsError} (hcheck : (s.filePath names).check = .error cause) :
    s.look d base names = .error cause := by
  rw [look, hcheck]

theorem check_of_missing (hlook : s.look d base names = .error .notFound) :
    (s.filePath names).check = .ok () := by
  cases hcheck : (s.filePath names).check with
  | ok u => rfl
  | error cause =>
    rw [look_of_unchecked hcheck] at hlook
    cases hlook
    exact absurd hcheck (check_ne_notFound _)

theorem check_filePath_of_concat (hcheck : (s.filePath (ns ++ [x])).check = .ok ()) :
    (s.filePath ns).check = .ok () := by
  apply check_of_prefix _ hcheck
  rw [filePath, filePath, OsPath.join_eq, OsPath.join_eq, ← List.append_assoc]
  exact List.prefix_append _ _

theorem Grounded.get?_of_missing (h : s.Grounded d base)
    (hmissing : d.get? (base ++ ns) ≠ some .directory) : d.get? (base ++ (ns ++ [x])) = none := by
  cases hthere : d.get? (base ++ (ns ++ [x])) with
  | none => rfl
  | some e =>
    rw [← List.append_assoc] at hthere
    exact absurd (h.nested ns x e hthere) hmissing

/-! ## The directories on the way -/

theorem makeAll_of_refused {p : OsPath} {rest : List OsPath} {cause : OsError}
    (hmake : d.makeDirectory p = .error cause) (hcause : cause ≠ .notFound)
    (hnot : d.isDirectory p = false) : d.makeAll (p :: rest) = (d, .error cause) := by
  rw [Disk.makeAll, hmake]
  split
  · rename_i made hmade
    cases hmade
  · rename_i hmissing
    cases hmissing
    exact absurd rfl hcause
  · rename_i cause' _ hcause'
    cases hcause'
    rw [Disk.unlessThere, hnot]
    rfl

theorem Rooted.makeAll_stems (h : s.Rooted d base) : d.makeAll s.stems = (d, .ok ()) := by
  apply Disk.makeAll_again
  intro p hp
  exact h.isDirectory_stems (List.mem_of_mem_head? hp)

section Chain

variable (h : s.Grounded d base) (hnames : ∀ y ∈ ns ++ [x], IsName y)
include h hnames

theorem makeDirectory_of_look {cause : OsError} (hlook : s.look d base (ns ++ [x]) = .error cause) :
    d.makeDirectory (s.filePath (ns ++ [x])) = .error cause ∧
      d.isDirectory (s.filePath (ns ++ [x])) = false := by
  have hsome : ns ++ [x] ≠ [] := by simp
  constructor
  · simp only [Disk.makeDirectory, h.locateName_eq hnames hsome, hlook]
  · simp only [Disk.isDirectory, Disk.find, h.locate_eq hnames hsome true, hlook]

theorem makeAll_of_unchecked {cause : OsError}
    (hcheck : (s.filePath (ns ++ [x])).check = .error cause) :
    d.makeAll (s.chain (ns ++ [x]) ++ s.stems) = (d, .error cause) := by
  obtain ⟨hmake, hnot⟩ := makeDirectory_of_look h hnames (look_of_unchecked hcheck)
  rw [chain_concat, List.cons_append]
  refine makeAll_of_refused hmake ?_ hnot
  rintro rfl
  exact check_ne_notFound _ hcheck

variable (hshort : Short (ns ++ [x])) (hcheck : (s.filePath (ns ++ [x])).check = .ok ())
include hshort hcheck

/-- A file on the way stops the directories from being made. -/
theorem makeAll_of_blocked (hblocked : d.Blocked base (ns ++ [x])) :
    d.makeAll (s.chain (ns ++ [x]) ++ s.stems) = (d, .error .notDirectory) := by
  have hlook : s.look d base (ns ++ [x]) = .error .notDirectory := by
    rw [look_of_checked hcheck, h.trail_of_blocked hshort hblocked]
  obtain ⟨hmake, hnot⟩ := makeDirectory_of_look h hnames hlook
  rw [chain_concat, List.cons_append]
  exact makeAll_of_refused hmake (by simp) hnot

theorem makeAll_of_file (hfile : d.HoldsFile (base ++ (ns ++ [x]))) :
    d.makeAll (s.chain (ns ++ [x]) ++ s.stems) = (d, .error .exists) := by
  obtain ⟨serial, content, hthere⟩ := hfile
  have hsome : ns ++ [x] ≠ [] := by simp
  have hdir := h.directory_of_prefix (List.prefix_append ns [x]) (by simp) hthere
  have hlook : s.look d base (ns ++ [x]) =
      .ok (.present (base ++ ns ++ [x]) (.file serial content)) := by
    rw [look_of_checked hcheck, h.trail_of_directory hshort hdir, Disk.lies, List.append_assoc, hthere]
  rw [chain_concat, List.cons_append]
  refine makeAll_of_refused ?_ (by simp) ?_
  · simp only [Disk.makeDirectory, h.locateName_eq hnames hsome, hlook]
  · simp only [Disk.isDirectory, Disk.find, h.locate_eq hnames hsome true, hlook]

/-- In a directory, the last directory is made, or is there. -/
theorem makeDirectory_of_parent (hdir : d.get? (base ++ ns) = some .directory)
    (hfree : ¬ d.HoldsFile (base ++ (ns ++ [x]))) :
    (d.get? (base ++ (ns ++ [x])) = none ∧
      d.makeDirectory (s.filePath (ns ++ [x])) = .ok (d.set (base ++ (ns ++ [x])) .directory)) ∨
    (d.get? (base ++ (ns ++ [x])) = some .directory ∧
      d.isDirectory (s.filePath (ns ++ [x])) = true) := by
  have hsome : ns ++ [x] ≠ [] := by simp
  have hlook : s.look d base (ns ++ [x]) = .ok (d.lies (base ++ (ns ++ [x]))) := by
    rw [look_of_checked hcheck, h.trail_of_directory hshort hdir, List.append_assoc]
  rw [Disk.lies] at hlook
  cases hthere : d.get? (base ++ (ns ++ [x])) with
  | none =>
    rw [hthere] at hlook
    left
    simp only [Disk.makeDirectory, h.locateName_eq hnames hsome, hlook]
    trivial
  | some e =>
    rw [hthere] at hlook
    cases e with
    | directory =>
      right
      simp only [Disk.isDirectory, Disk.find, h.locate_eq hnames hsome true, hlook]
      trivial
    | file serial content => exact absurd ⟨serial, content, hthere⟩ hfree
    | link target => exact absurd hthere (h.plain _ target)

end Chain

/-- Where no file lies in the way, all directories are there in the end. -/
theorem makeAll_of_free (h : s.Grounded d base) (hnames : ∀ y ∈ ns, IsName y) (hshort : Short ns)
    (hcheck : ns ≠ [] → (s.filePath ns).check = .ok ()) (hclear : ¬ d.Blocked base ns)
    (hfree : ¬ d.HoldsFile (base ++ ns)) :
    (d.makeAll (s.chain ns ++ s.stems)).2 = .ok () ∧
      (d.makeAll (s.chain ns ++ s.stems)).1.get? (base ++ ns) = some .directory := by
  induction ns using List.reverseRecOn with
  | nil =>
    have hstems : s.chain [] ++ s.stems = s.stems := rfl
    rw [hstems, h.makeAll_stems, List.append_nil]
    exact ⟨rfl, h.top⟩
  | append_singleton ns x ih =>
    have hloc : base ++ (ns ++ [x]) ≠ [] := by simp
    have hchecked := hcheck (by simp)
    rw [chain_concat, List.cons_append]
    by_cases hdir : d.get? (base ++ ns) = some .directory
    · obtain ⟨hnone, hmake⟩ | ⟨hthere, his⟩ :=
        makeDirectory_of_parent h hnames hshort hchecked hdir hfree
      · rw [Disk.makeAll, hmake]
        exact ⟨rfl, by rw [Disk.get?_set d hloc, if_pos rfl]⟩
      · rw [Disk.makeAll_again fun p hp => by cases hp; exact his]
        exact ⟨rfl, hthere⟩
    · -- the directories before it are made first, and it is made in the last of them
      have hlook : s.look d base (ns ++ [x]) = .error .notFound := by
        rw [look_of_checked hchecked, h.trail_of_missing hshort hclear hdir]
      obtain ⟨hmissing, -⟩ := makeDirectory_of_look h hnames hlook
      obtain ⟨hclear', hfree'⟩ := Disk.not_blocked_of_concat hclear
      have hnames' : ∀ y ∈ ns, IsName y := fun y hy => hnames y (List.mem_append_left _ hy)
      obtain ⟨hok, hmade⟩ := ih hnames' (hshort.of_prefix (List.prefix_append ns [x]))
        (fun _ => check_filePath_of_concat hchecked) hclear' hfree'
      have hpaves := paves_chain h hnames
      cases hrest : d.makeAll (s.chain ns ++ s.stems) with
      | mk between result =>
        rw [hrest] at hok hmade hpaves
        dsimp only at hok hmade hpaves
        subst hok
        have hnone : between.get? (base ++ (ns ++ [x])) = none := by
          rw [hpaves.file]
          exact h.get?_of_missing hdir
        obtain ⟨-, hmake⟩ | ⟨hthere, -⟩ := makeDirectory_of_parent hpaves.grounded hnames hshort
          hchecked hmade (by rintro ⟨_, _, hfile⟩; rw [hnone] at hfile; cases hfile)
        · rw [Disk.makeAll, hmissing]
          simp only [hrest, hmake]
          exact ⟨trivial, by rw [Disk.get?_set _ hloc, if_pos rfl]⟩
        · rw [hnone] at hthere
          cases hthere

/-! ## What a storage answers -/

theorem makeWay_eq (s : Storage) (d : Disk) (hpath : resolve path = .ok (ns ++ [x])) :
    s.makeWay d path =
      ((d.makeAll (s.chain ns ++ s.stems)).1,
        (d.makeAll (s.chain ns ++ s.stems)).2.mapError .io) := by
  obtain ⟨-, hnames⟩ := resolve_eq_ok hpath
  simp only [makeWay, hpath, Disk.makeParents, above_filePath s hnames]
  rcases d.makeAll (s.chain ns ++ s.stems) with ⟨d', cause | u⟩ <;> rfl

section Answers

variable (h : s.Grounded d base) (hpath : resolve path = .ok (ns ++ [x]))
  (hshort : Short (ns ++ [x]))
include h hpath hshort

/-- To open a file in a directory that is there: it is made if nothing is there, opened if it is a file,
and refused else. -/
theorem openFile_eq (hdir : d.get? (base ++ ns) = some .directory) : s.openFile d path =
    match (s.filePath (ns ++ [x])).check with
    | .error cause => (d, .error (.io cause))
    | .ok () =>
      match d.get? (base ++ (ns ++ [x])) with
      | none => (d.addFile (base ++ (ns ++ [x])) .empty, .ok ⟨base ++ (ns ++ [x]), d.nextSerial⟩)
      | some (.file serial _) => (d, .ok ⟨base ++ (ns ++ [x]), serial⟩)
      | some _ => (d, .error (.io .isDirectory)) := by
  obtain ⟨hsome, hnames⟩ := resolve_eq_ok hpath
  have hlocate := h.locateFile_eq hnames hsome
  cases hcheck : (s.filePath (ns ++ [x])).check with
  | error cause =>
    rw [look_of_unchecked hcheck] at hlocate
    simp only [openFile, hpath, Disk.openForWriting, hlocate]
  | ok u =>
    rw [look_of_checked hcheck, h.trail_of_directory hshort hdir, Disk.lies, List.append_assoc]
      at hlocate
    simp only [openFile, hpath, Disk.openForWriting, hlocate]
    cases d.get? (base ++ (ns ++ [x])) with
    | none => rfl
    | some e => cases e <;> rfl

omit hshort in
theorem delete_of_unchecked {cause : OsError}
    (hcheck : (s.filePath (ns ++ [x])).check = .error cause) :
    s.delete d path = (d, .error (.io cause)) := by
  obtain ⟨hsome, hnames⟩ := resolve_eq_ok hpath
  have hlocate := h.locate_eq hnames hsome false
  rw [look_of_unchecked hcheck] at hlocate
  simp only [delete, hpath, Disk.remove, hlocate]
  cases cause with
  | notFound => exact absurd hcheck (check_ne_notFound _)
  | _ => rfl

variable (hcheck : (s.filePath (ns ++ [x])).check = .ok ())
include hcheck

/-- A file on the way stops a deletion. -/
theorem delete_of_blocked (hblocked : d.Blocked base (ns ++ [x])) :
    s.delete d path = (d, .error (.io .notDirectory)) := by
  obtain ⟨hsome, hnames⟩ := resolve_eq_ok hpath
  have hlocate := h.locate_eq hnames hsome false
  rw [look_of_checked hcheck, h.trail_of_blocked hshort hblocked] at hlocate
  simp only [delete, hpath, Disk.remove, hlocate]

/-- Else a file is deleted, and nothing found where there is none. -/
theorem delete_of_free (hclear : ¬ d.Blocked base (ns ++ [x])) : s.delete d path =
    match d.get? (base ++ (ns ++ [x])) with
    | none => (d, .ok false)
    | some (.file _ _) => (d.erase (base ++ (ns ++ [x])), .ok true)
    | some _ => (d, .error (.io .isDirectory)) := by
  obtain ⟨hsome, hnames⟩ := resolve_eq_ok hpath
  have hlocate := h.locate_eq hnames hsome false
  rw [look_of_checked hcheck] at hlocate
  by_cases hdir : d.get? (base ++ ns) = some .directory
  · rw [h.trail_of_directory hshort hdir, Disk.lies, List.append_assoc] at hlocate
    simp only [delete, hpath, Disk.remove, hlocate]
    cases hthere : d.get? (base ++ (ns ++ [x])) with
    | none => rfl
    | some e =>
      cases e with
      | link target => exact absurd hthere (h.plain _ target)
      | _ => rfl
  · rw [h.trail_of_missing hshort hclear hdir] at hlocate
    simp only [delete, hpath, Disk.remove, hlocate, h.get?_of_missing hdir]

end Answers

end Storage

end ResumableUpload
