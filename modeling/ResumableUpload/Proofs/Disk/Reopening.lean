import ResumableUpload.Proofs.Disk.Outlook

/-
  Reopening — what an opening leaves, and what comes of the next

  To open a file for writing may stop anywhere on the way: at a name that is too
  long, at a file where a directory is needed, at a directory in the place of the
  file. What it made up to there stays, and stands in nobody's way: the next
  opening finds those directories made, and stops where the first one stopped.

  What is held:
    1. `LeadsTo` — the directories on the way to the file of a storage path.
    2. `Approached` — a disk on which some of them were made.
    3. `Readied` — a disk on which the file was opened.

  What is proved:
    1. `makeAll_cons_error` — the three ways in which the making of directories
       fails.
    2. `Grounded.makeAll_fails_again` — it fails the same on what it left.
    3. `opens_or_fails_alike_again` — an opening readies the file, or fails
       and goes on to.
-/

namespace ResumableUpload

namespace Disk

variable {d d' : Disk} {p : OsPath} {rest : List OsPath} {cause : OsError}

theorem unlessThere_eq_error {cause' : OsError}
    (h : d.unlessThere p cause = (d', .error cause')) :
    d' = d ∧ cause' = cause ∧ d.isDirectory p = false := by
  unfold unlessThere at h
  split at h
  · cases h
  · rename_i hnot
    cases h
    exact ⟨rfl, rfl, Bool.eq_false_iff.mpr hnot⟩

/-- The making of a directory fails outright; or where what it lies in could not be made; or once that
was made, in its own turn. -/
theorem makeAll_cons_error (h : d.makeAll (p :: rest) = (d', .error cause)) :
    (d' = d ∧ cause ≠ .notFound ∧ d.makeDirectory p = .error cause ∧ d.isDirectory p = false) ∨
    (d.makeDirectory p = .error .notFound ∧ d.makeAll rest = (d', .error cause)) ∨
    (d.makeAll rest = (d', .ok ()) ∧ d'.makeDirectory p = .error cause ∧ d'.isDirectory p = false) := by
  rw [makeAll] at h
  split at h
  · cases h
  · rename_i hmissing
    split at h
    · rename_i between cause' hrest
      cases h
      exact .inr (.inl ⟨hmissing, hrest⟩)
    · rename_i between hrest
      split at h
      · cases h
      · rename_i cause' hagain
        obtain ⟨rfl, rfl, hnot⟩ := unlessThere_eq_error h
        exact .inr (.inr ⟨hrest, hagain, hnot⟩)
  · rename_i cause' hother hmake
    obtain ⟨rfl, rfl, hnot⟩ := unlessThere_eq_error h
    exact .inl ⟨rfl, fun hcause => hother hcause, hmake, hnot⟩

theorem makeAll_of_error (hmake : d.makeDirectory p = .error cause) (hnot : d.isDirectory p = false)
    (hrest : d.makeAll rest = (d, .ok ()) ∨ d.makeAll rest = (d, .error cause)) :
    d.makeAll (p :: rest) = (d, .error cause) := by
  by_cases hcause : cause = .notFound
  · subst hcause
    rw [makeAll, hmake]
    rcases hrest with hrest | hrest
    · simp only [hrest, hmake]
      rw [unlessThere, hnot]
      rfl
    · simp only [hrest]
  · exact Storage.makeAll_of_refused hmake hcause hnot

end Disk

namespace Storage

variable {s : Storage} {d d' d'' : Disk} {base names ns : Location} {x path : String}

/-- A directory lies on the way to the file of a storage path. -/
def LeadsTo (base : Location) (path : String) (loc : Location) : Prop :=
  ∃ names ns, resolve path = .ok names ∧ ns <+: names ∧ ns ≠ names ∧ loc = base ++ ns

/-- On the way to the file of a storage path directories were made, where nothing was. All else is as it
was. -/
structure Approached (base : Location) (path : String) (d d' : Disk) : Prop where
  made : Disk.Made d d'
  onWay : ∀ loc, d'.get? loc ≠ d.get? loc → LeadsTo base path loc

theorem Approached.refl (base : Location) (path : String) (d : Disk) : Approached base path d d :=
  ⟨.refl d, fun _ h => absurd rfl h⟩

theorem Approached.trans (h : Approached base path d d') (h' : Approached base path d' d'') :
    Approached base path d d'' where
  made := h.made.trans h'.made
  onWay := by
    intro loc hloc
    by_cases hsame : d'.get? loc = d.get? loc
    · exact h'.onWay loc (hsame ▸ hloc)
    · exact h.onWay loc hsame

theorem approached_set {loc : Location} (hfree : d.get? loc = none) (hleads : LeadsTo base path loc) :
    Approached base path d (d.set loc .directory) where
  made := Disk.made_set hfree
  onWay := by
    intro q hq
    have hloc : loc ≠ [] := by
      rintro rfl
      simp at hfree
    rw [Disk.get?_set d hloc] at hq
    split at hq
    · rename_i heq
      exact heq ▸ hleads
    · exact absurd rfl hq

theorem approached_makeWay (h : s.Grounded d base) (path : String) :
    Approached base path d (s.makeWay d path).1 := by
  cases hpath : resolve path with
  | error err =>
    rw [makeWay, hpath]
    exact .refl base path d
  | ok names =>
    obtain ⟨hsome, hnames⟩ := resolve_eq_ok hpath
    have hmade : s.Paves base names d (d.makeParents (s.filePath names)).1 ∧
        Approached base path d (d.makeParents (s.filePath names)).1 := by
      refine Disk.makeAll_keeps (P := fun e => s.Paves base names d e ∧ Approached base path d e) ?_
        ⟨.refl h names, .refl base path d⟩
      rintro p hp e e' ⟨hpaves, happroached⟩ hmake
      rcases (h.onWay_above hnames hsome hp).steady hpaves.steady with hdir | ⟨ns, rfl, hns, hpre, hne⟩
      · rw [Disk.makeDirectory_of_isDirectory hdir] at hmake
        cases hmake
      · refine ⟨hpaves.trans (paves_makeDirectory hpaves.grounded hpre hne hns hnames hmake), ?_⟩
        obtain ⟨hfree, -, rfl⟩ := hpaves.grounded.makeDirectory
          (fun y hy => hnames y (hpre.subset hy)) hns hmake
        exact happroached.trans (approached_set hfree ⟨names, ns, hpath, hpre, hne, rfl⟩)
    rw [makeWay, hpath]
    rcases hmake : d.makeParents (s.filePath names) with ⟨d', cause | u⟩ <;>
      simpa only [hmake] using hmade.2

/-! ## A failure on the way -/

theorem Grounded.trail_behind_file (h : s.Grounded d base) (hfile : d.HoldsFile (base ++ ns)) :
    d.trail base (ns ++ [x]) ≠ .error .notFound := by
  obtain ⟨serial, content, hthere⟩ := hfile
  obtain ⟨ms, y, rfl, hdir⟩ := h.directory_of_file hthere
  rw [List.append_assoc, h.trail_append hdir]
  split
  · rw [← List.append_assoc] at hthere
    rw [List.singleton_append, Disk.trail, hthere]
    split <;> simp
  · simp

theorem Grounded.makeDirectory_eq_error (h : s.Grounded d base) (hnames : ∀ y ∈ ns, IsName y)
    (hsome : ns ≠ []) {cause : OsError} (hmake : d.makeDirectory (s.filePath ns) = .error cause) :
    s.look d base ns = .error cause ∨
      (cause = .exists ∧ ∃ e, s.look d base ns = .ok (.present (base ++ ns) e) ∧
        d.get? (base ++ ns) = some e) := by
  have hname := h.locateName_eq hnames hsome
  obtain ⟨hyes, hno⟩ := h.locateName hnames hsome
  rw [Disk.makeDirectory] at hmake
  by_cases hclear : s.Clear d base ns
  · rw [hyes hclear] at hname hmake
    unfold Disk.lies at hname hmake
    cases hthere : d.get? (base ++ ns) with
    | none =>
      rw [hthere] at hmake
      cases hmake
    | some e =>
      rw [hthere] at hmake hname
      cases hmake
      exact .inr ⟨rfl, e, hname.symm, rfl⟩
  · obtain ⟨cause', herror⟩ := hno hclear
    rw [herror] at hname hmake
    cases hmake
    exact .inl hname.symm

theorem Grounded.trail_or_file (h : s.Grounded d base) (hnames : ∀ y ∈ ns, IsName y) (hsome : ns ≠ [])
    {cause : OsError} (hmake : d.makeDirectory (s.filePath ns) = .error cause)
    (hnot : d.isDirectory (s.filePath ns) = false) :
    s.look d base ns = .error cause ∨ d.HoldsFile (base ++ ns) := by
  obtain herror | ⟨-, e, hlook, hthere⟩ := h.makeDirectory_eq_error hnames hsome hmake
  · exact .inl herror
  · right
    cases e with
    | directory =>
      simp only [Disk.isDirectory, Disk.find, h.locate_eq hnames hsome true, hlook] at hnot
      cases hnot
    | file serial content => exact ⟨serial, content, hthere⟩
    | link target => exact absurd hthere (h.plain ns target)

/-- Where the directories on a way cannot be made, they cannot be made on what the attempt left, for the
same reason; and the way is not looked up there either, unless it ends at a file. -/
theorem Grounded.makeAll_fails_again (h : s.Grounded d base) (hnames : ∀ y ∈ ns, IsName y)
    {cause : OsError} (hfail : d.makeAll (s.chain ns ++ s.stems) = (d', .error cause)) :
    d'.makeAll (s.chain ns ++ s.stems) = (d', .error cause) ∧
      ((s.filePath ns).check = .ok () →
        d'.trail base ns = .error cause ∨ d'.HoldsFile (base ++ ns)) := by
  induction ns using List.reverseRecOn generalizing cause d' with
  | nil =>
    have hstems : s.chain [] ++ s.stems = s.stems := rfl
    rw [hstems, h.makeAll_stems] at hfail
    cases hfail
  | append_singleton ns x ih =>
    have hsome : ns ++ [x] ≠ [] := by simp
    have hnames' : ∀ y ∈ ns, IsName y := fun y hy => hnames y (List.mem_append_left _ hy)
    have hpaves := paves_chain h hnames
    rw [chain_concat, List.cons_append] at hfail ⊢
    obtain ⟨rfl, hcause, hmake, hnot⟩ | ⟨hmissing, hrest⟩ | ⟨hrest, hmake, hnot⟩ :=
      Disk.makeAll_cons_error hfail
    · -- the last directory is refused outright, and nothing was made
      refine ⟨makeAll_of_refused hmake hcause hnot, fun hcheck => ?_⟩
      exact look_of_checked hcheck ▸ h.trail_or_file hnames hsome hmake hnot
    · -- the directories before it stop at the same place once more, and it is not looked up for that reason
      rw [hrest] at hpaves
      have hlook : s.look d base (ns ++ [x]) = .error .notFound := by
        refine (h.makeDirectory_eq_error hnames hsome hmissing).resolve_right ?_
        rintro ⟨hcause, -⟩
        cases hcause
      have hcheck := check_of_missing hlook
      rw [look_of_checked hcheck] at hlook
      obtain ⟨hagain, hend⟩ := ih hnames' hrest
      have htrail : d'.trail base (ns ++ [x]) = .error cause := by
        rcases hend (check_filePath_of_concat hcheck) with herror | hfile
        · exact Disk.trail_error_append herror [x]
        · rw [hpaves.holdsFile (by simp)] at hfile
          exact absurd hlook (h.trail_behind_file hfile)
      obtain ⟨hmake', hnot'⟩ :=
        makeDirectory_of_look hpaves.grounded hnames ((look_of_checked hcheck).trans htrail)
      exact ⟨Disk.makeAll_of_error hmake' hnot' (.inr hagain), fun _ => .inl htrail⟩
    · -- the directories before it are there by now
      rw [hrest] at hpaves
      have hagain := Disk.makeAll_again (Disk.makeAll_eq_ok hrest).2
      refine ⟨Disk.makeAll_of_error hmake hnot (.inl hagain), fun hcheck => ?_⟩
      exact look_of_checked hcheck ▸ hpaves.grounded.trail_or_file hnames hsome hmake hnot

/-! ## A file opened -/

/-- The file of a storage path was opened: it is a regular file, with what it held, or nothing where it
was missing. It lies in directories, and all else is as it was but for those that were made on the way. -/
structure Readied (base : Location) (path : String) (d d' : Disk) (file : OpenFile) : Prop where
  loc : ∃ names, resolve path = .ok names ∧ file.loc = base ++ names
  there : d'.get? file.loc = some (.file file.serial ((d.contentOf? file.loc).getD .empty))
  before : d.get? file.loc = none ∨ d.get? file.loc = d'.get? file.loc
  parents : ∀ loc, LeadsTo base path loc → d'.get? loc = some .directory
  elsewhere : ∀ loc, loc ≠ file.loc → d'.get? loc = d.get? loc ∨
    (d.get? loc = none ∧ d'.get? loc = some .directory ∧ LeadsTo base path loc)

/-- A file opened once its directories were made was opened. -/
theorem readied_of_openFile (hpath : resolve path = .ok names)
    (happroached : Approached base path d d') (hgrounded : s.Grounded d' base) {file : OpenFile}
    (hopen : s.openFile d' path = (d'', .ok file)) : Readied base path d d'' file := by
  obtain ⟨hsome, -⟩ := resolve_eq_ok hpath
  have hloc : base ++ names ≠ [] := by simp [hsome]
  have hkept : d'.get? (base ++ names) = d.get? (base ++ names) := by
    by_contra hnot
    obtain ⟨names', ns, hpath', -, hne, heq⟩ := happroached.onWay _ hnot
    rw [hpath] at hpath'
    cases hpath'
    exact hne (List.append_cancel_left heq).symm
  obtain ⟨htends, hfile, -⟩ := tends_openFile hgrounded hpath
  rw [hopen] at htends hfile
  obtain ⟨hfileLoc, content, hthere⟩ := hfile file rfl
  have hcontent : d''.get? (base ++ names) =
        some (.file file.serial ((d.contentOf? (base ++ names)).getD .empty)) ∧
      (d.get? (base ++ names) = none ∨ d.get? (base ++ names) = d''.get? (base ++ names)) ∧
      ∀ loc, loc ≠ base ++ names → d''.get? loc = d'.get? loc := by
    obtain ⟨err, hcase⟩ | ⟨-, serial, old, hold, hcase⟩ | ⟨-, hfree, hcase⟩ :=
      hgrounded.openFile_cases hpath
    · rw [hopen] at hcase
      cases hcase
    · rw [hopen] at hcase
      cases hcase
      rw [hkept] at hold ⊢
      rw [Disk.contentOf?, hold]
      exact ⟨rfl, .inr rfl, fun _ _ => rfl⟩
    · rw [hopen] at hcase
      cases hcase
      rw [hkept] at hfree
      rw [Disk.get?_addFile _ hloc, if_pos rfl, Disk.contentOf?, hfree]
      exact ⟨rfl, .inl rfl, fun loc hne => by rw [Disk.get?_addFile _ hloc, if_neg hne]⟩
  obtain ⟨hthere', hbefore, helse⟩ := hcontent
  rw [← hfileLoc] at hthere' hbefore helse
  refine ⟨⟨names, hpath, hfileLoc⟩, hthere', hbefore, ?_, ?_⟩
  · rintro loc ⟨names', ns, hpath', hpre, hne, rfl⟩
    rw [hpath] at hpath'
    cases hpath'
    exact htends.grounded.directory_of_prefix hpre hne hthere
  · intro loc hne
    rw [helse loc hne]
    rcases happroached.made loc with hsame | ⟨hnone, hdir⟩
    · exact .inl hsame
    · refine .inr ⟨hnone, hdir, happroached.onWay loc ?_⟩
      rw [hnone, hdir]
      simp

theorem makeWay_again (h : s.Grounded d base) {r : Except Error Unit}
    (hmake : s.makeWay d path = (d', r)) : s.makeWay d' path = (d', r) := by
  cases hpath : resolve path with
  | error err =>
    rw [makeWay, hpath] at hmake ⊢
    cases hmake
    rfl
  | ok names =>
    obtain ⟨hsome, hnames⟩ := resolve_eq_ok hpath
    obtain ⟨ns, x, rfl⟩ := (List.eq_nil_or_concat names).resolve_left hsome
    rw [List.concat_eq_append] at hpath hnames
    have hnames' : ∀ y ∈ ns, IsName y := fun y hy => hnames y (List.mem_append_left _ hy)
    rw [makeWay_eq s d hpath] at hmake
    rw [makeWay_eq s d' hpath]
    rcases hall : d.makeAll (s.chain ns ++ s.stems) with ⟨e, cause | u⟩
    · rw [hall] at hmake
      cases hmake
      rw [(h.makeAll_fails_again hnames' hall).1]
    · rw [hall] at hmake
      cases hmake
      rw [Disk.makeAll_again (Disk.makeAll_eq_ok hall).2]

/-- An opening readies the file. Or it fails: then nothing came but directories on the way, every file
holds what it held, and the next opening fails the same and changes nothing. -/
theorem opens_or_fails_alike_again (h : s.Grounded d base) (path : String) :
    match s.openForWrite d path with
    | (d', .ok file) => Readied base path d d' file
    | (d', .error err) => Approached base path d d' ∧
        (∀ loc, d'.contentOf? loc = d.contentOf? loc) ∧
        s.openForWrite d' path = (d', .error err) := by
  have happroached := approached_makeWay h path
  rcases hmake : s.makeWay d path with ⟨d', err | u⟩
  · -- the way stops, and stops there again
    rw [hmake] at happroached
    simp only [openForWrite, hmake, makeWay_again h hmake]
    exact ⟨happroached, happroached.made.contentOf?_eq, trivial⟩
  · rw [hmake] at happroached
    obtain ⟨names, hpath⟩ : ∃ names, resolve path = .ok names := by
      cases hpath : resolve path with
      | error err =>
        rw [makeWay, hpath] at hmake
        cases hmake
      | ok names => exact ⟨names, rfl⟩
    have hgrounded : s.Grounded d' base := by
      have hpaves := paves_makeWay h hpath
      rw [hmake] at hpaves
      exact hpaves.grounded
    rcases hopen : s.openFile d' path with ⟨d'', err | file⟩
    · -- the directories are there by now, and no file is opened in them
      obtain rfl : d'' = d' := by
        have hsame := (tends_openFile hgrounded hpath).2.2 err
        rw [hopen] at hsame
        exact hsame rfl
      simp only [openForWrite, hmake, makeWay_again h hmake, hopen]
      exact ⟨happroached, happroached.made.contentOf?_eq, trivial⟩
    · simp only [openForWrite, hmake, hopen]
      exact readied_of_openFile hpath happroached hgrounded hopen

/-- A directory is made, and the name of the file in it is refused; and that is so again. -/
theorem half_a_way_is_made_once :
    (Storage.mk "up").Grounded emptyBase ["up"] ∧
      ∃ d', (Storage.mk "up").openForWrite emptyBase "c/\x00" = (d', .error (.io .nulInPath)) ∧
        d'.get? ["up", "c"] = some .directory ∧
        (Storage.mk "up").openForWrite d' "c/\x00" = (d', .error (.io .nulInPath)) := by
  have hopen : (Storage.mk "up").openForWrite emptyBase "c/\x00" =
      (emptyBase.set ["up", "c"] .directory, .error (.io .nulInPath)) := rfl
  have h := opens_or_fails_alike_again emptyBase_grounded "c/\x00"
  rw [hopen] at h
  exact ⟨emptyBase_grounded, _, hopen, rfl, h.2.2⟩

end Storage

end ResumableUpload
