import ResumableUpload.Proofs.Disk.Outlook

/-
  Alike — trees that one file cannot tell apart

  Two trees are alike for a file if files lie at the same places on its way, and
  the same lies at its end. One of them may have more directories on the way
  than the other. What is done for the file comes to the same in both, and
  leaves them alike; and so do operations for files elsewhere, in either tree.

  What is held:
    1. `Storage.Alike` — trees that one file cannot tell apart.
    2. `Disk.Holds` — a handle of a file that is there; `Disk.Even` — what is
       done comes to the same in both trees.
    3. `Delivery.Abreast` — two deliveries at the same point, each in its tree;
       `Delivery.Keeps` — and what an operation comes to in both.

  What is proved:
    1. `Tends.holdsFile`, `Alike.elsewhere` — what is done for a file elsewhere
       leaves trees alike.
    2. `Alike.makeWay`, `Alike.openFile`, `Alike.place`, `Alike.delete` — what
       is done for the file comes to the same.
    3. `Abreast.advance` — so does every operation of a delivery.
-/

namespace ResumableUpload

/-- The entry without the number it was created under. -/
def Entry.unnumbered : Entry → Entry
  | .file _ content => .file 0 content
  | e => e

/-- Trees in which files lie at the same places on the way to a file, and the same at its end. -/
structure Storage.Alike (s : Storage) (base names : Location) (d d' : Disk) : Prop where
  left : s.Grounded d base
  right : s.Grounded d' base
  way : ∀ ns, ns <+: names → ns ≠ names → (d.HoldsFile (base ++ ns) ↔ d'.HoldsFile (base ++ ns))
  file : (d.get? (base ++ names)).map Entry.unnumbered =
    (d'.get? (base ++ names)).map Entry.unnumbered

/-- A handle of the file that names stand for, which is there. -/
def Disk.Holds (d : Disk) (base names : Location) (w : FileWriter) : Prop :=
  w.file.loc = base ++ names ∧ ∃ content, d.get? (base ++ names) = some (.file w.file.serial content)

/-- An operation fails for one cause in both trees, or succeeds in both and leaves each as it should. -/
def Disk.Even {ε α : Type} (leaves : Disk → α → Prop) (r r' : Disk × Except ε α) : Prop :=
  (∃ err, r.2 = .error err ∧ r'.2 = .error err) ∨
    ∃ a a', (r.2 = .ok a ∧ leaves r.1 a) ∧ r'.2 = .ok a' ∧ leaves r'.1 a'

namespace Storage

variable {s : Storage} {d d' e e' : Disk} {base names ns ms : Location} {x path : String}

namespace Alike

theorem refl (h : s.Grounded d base) (names : Location) : s.Alike base names d d :=
  ⟨h, h, fun _ _ _ => Iff.rfl, rfl⟩

theorem elsewhere (h : s.Alike base names d d') (htends : s.Tends base ms d e)
    (hnot : ¬ ms <+: names) (hnot' : ¬ names <+: ms) : s.Alike base names e d' := by
  refine ⟨htends.grounded, h.right, fun ns hpre hne => ?_, ?_⟩
  · have hms : ns ≠ ms := by
      rintro rfl
      exact hnot hpre
    exact (htends.holdsFile hms).trans (h.way ns hpre hne)
  · rw [htends.away names hnot']
    exact h.file

theorem both (h : s.Alike base names d d') (htends : s.Tends base names d e)
    (htends' : s.Tends base names d' e')
    (hfile : (e.get? (base ++ names)).map Entry.unnumbered =
      (e'.get? (base ++ names)).map Entry.unnumbered) : s.Alike base names e e' :=
  ⟨htends.grounded, htends'.grounded,
    fun ns hpre hne => (htends.holdsFile hne).trans ((h.way ns hpre hne).trans
      (htends'.holdsFile hne).symm), hfile⟩

theorem blocked (h : s.Alike base names d d') (hpre : ns <+: names) :
    d.Blocked base ns ↔ d'.Blocked base ns := by
  have hway : ∀ ms, ms <+: ns → ms ≠ ns →
      (d.HoldsFile (base ++ ms) ↔ d'.HoldsFile (base ++ ms)) := by
    intro ms hms hne
    refine h.way ms (hms.trans hpre) ?_
    rintro rfl
    exact hne (hms.eq_of_length_le hpre.length_le)
  constructor
  · rintro ⟨ms, hms, hne, hfile⟩
    exact ⟨ms, hms, hne, (hway ms hms hne).mp hfile⟩
  · rintro ⟨ms, hms, hne, hfile⟩
    exact ⟨ms, hms, hne, (hway ms hms hne).mpr hfile⟩

/-- What one tree has at the end of the way, the other has, maybe under another number. -/
theorem get?_cases (h : s.Alike base names d d') :
    (d.get? (base ++ names) = none ∧ d'.get? (base ++ names) = none) ∨
    (d.get? (base ++ names) = some .directory ∧ d'.get? (base ++ names) = some .directory) ∨
    ∃ serial serial' content, d.get? (base ++ names) = some (.file serial content) ∧
      d'.get? (base ++ names) = some (.file serial' content) := by
  have hfile := h.file
  have hplain := h.left.plain names
  have hplain' := h.right.plain names
  cases hd : d.get? (base ++ names) with
  | none =>
    rw [hd, Option.map_none] at hfile
    exact .inl ⟨rfl, Option.map_eq_none_iff.mp hfile.symm⟩
  | some y =>
    obtain ⟨y', hd', hsame⟩ : ∃ y', d'.get? (base ++ names) = some y' ∧
        y'.unnumbered = y.unnumbered := by
      rw [hd, Option.map_some] at hfile
      exact Option.map_eq_some_iff.mp hfile.symm
    right
    cases y with
    | link target => exact absurd hd (hplain target)
    | directory =>
      cases y' with
      | directory => exact .inl ⟨rfl, hd'⟩
      | _ => cases hsame
    | file serial content =>
      cases y' with
      | file serial' content' =>
        cases hsame
        exact .inr ⟨serial, serial', content, rfl, hd'⟩
      | _ => cases hsame

theorem contentOf?_eq (h : s.Alike base names d d') :
    d.contentOf? (base ++ names) = d'.contentOf? (base ++ names) := by
  unfold Disk.contentOf?
  obtain ⟨hd, hd'⟩ | ⟨hd, hd'⟩ | ⟨serial, serial', content, hd, hd'⟩ := h.get?_cases <;> rw [hd, hd']

/-! ## What is done for the file -/

/-- The directories on the way fail for one cause in both trees, or are there in both in the end. -/
theorem makeAll (h : s.Alike base (ns ++ [x]) d d') (hnames : ∀ y ∈ ns, IsName y)
    (hshort : Short ns) :
    Disk.Even (fun d _ => d.get? (base ++ ns) = some .directory)
      (d.makeAll (s.chain ns ++ s.stems)) (d'.makeAll (s.chain ns ++ s.stems)) := by
  have hpre : ns <+: ns ++ [x] := List.prefix_append ns [x]
  have hblocks := h.blocked hpre
  have hholds := h.way ns hpre (by simp)
  have hfree : (ns ≠ [] → (s.filePath ns).check = .ok ()) → ¬ d.Blocked base ns →
      ¬ d.HoldsFile (base ++ ns) → Disk.Even (fun d _ => d.get? (base ++ ns) = some .directory)
        (d.makeAll (s.chain ns ++ s.stems)) (d'.makeAll (s.chain ns ++ s.stems)) :=
    fun hcheck hclear hfile => .inr ⟨(), (),
      makeAll_of_free h.left hnames hshort hcheck hclear hfile,
      makeAll_of_free h.right hnames hshort hcheck (mt hblocks.mpr hclear) (mt hholds.mpr hfile)⟩
  obtain rfl | ⟨ms, y, rfl⟩ := List.eq_nil_or_concat ns
  · -- the base itself is there
    refine hfree (fun hne => absurd rfl hne) ?_ ?_
    · rintro ⟨ms, hms, hne, -⟩
      exact hne (List.prefix_nil.mp hms)
    · rintro ⟨serial, content, hfile⟩
      rw [List.append_nil, h.left.top] at hfile
      cases hfile
  · rw [List.concat_eq_append] at *
    cases hcheck : (s.filePath (ms ++ [y])).check with
    | error cause =>
      left
      rw [makeAll_of_unchecked h.left hnames hcheck, makeAll_of_unchecked h.right hnames hcheck]
      exact ⟨cause, rfl, rfl⟩
    | ok u =>
      by_cases hblocked : d.Blocked base (ms ++ [y])
      · left
        rw [makeAll_of_blocked h.left hnames hshort hcheck hblocked,
          makeAll_of_blocked h.right hnames hshort hcheck (hblocks.mp hblocked)]
        exact ⟨.notDirectory, rfl, rfl⟩
      by_cases hfile : d.HoldsFile (base ++ (ms ++ [y]))
      · left
        rw [makeAll_of_file h.left hnames hshort hcheck hfile,
          makeAll_of_file h.right hnames hshort hcheck (hholds.mp hfile)]
        exact ⟨.exists, rfl, rfl⟩
      · exact hfree (fun _ => hcheck) hblocked hfile

theorem makeWay (h : s.Alike base (ns ++ [x]) d d') (hpath : resolve path = .ok (ns ++ [x]))
    (hshort : Short (ns ++ [x])) :
    s.Alike base (ns ++ [x]) (s.makeWay d path).1 (s.makeWay d' path).1 ∧
      Disk.Even (fun d _ => d.get? (base ++ ns) = some .directory) (s.makeWay d path)
        (s.makeWay d' path) := by
  have hpaves := paves_makeWay h.left hpath
  have hpaves' := paves_makeWay h.right hpath
  refine ⟨h.both hpaves.toTends hpaves'.toTends ?_, ?_⟩
  · rw [hpaves.file, hpaves'.file]
    exact h.file
  · obtain ⟨-, hnames⟩ := resolve_eq_ok hpath
    have hpre : ns <+: ns ++ [x] := List.prefix_append ns [x]
    rw [makeWay_eq s d hpath, makeWay_eq s d' hpath]
    obtain ⟨cause, hfails, hfails'⟩ | ⟨_, _, ⟨hok, hdir⟩, hok', hdir'⟩ :=
      h.makeAll (fun y hy => hnames y (hpre.subset hy)) (hshort.of_prefix hpre)
    · rw [hfails, hfails']
      exact .inl ⟨.io cause, rfl, rfl⟩
    · rw [hok, hok']
      exact .inr ⟨(), (), ⟨rfl, hdir⟩, rfl, hdir'⟩

/-- In directories that are there, the file is refused for one cause in both trees, or opened in both. -/
theorem openFile (h : s.Alike base (ns ++ [x]) d d') (hpath : resolve path = .ok (ns ++ [x]))
    (hshort : Short (ns ++ [x])) (hdir : d.get? (base ++ ns) = some .directory)
    (hdir' : d'.get? (base ++ ns) = some .directory) :
    s.Alike base (ns ++ [x]) (s.openFile d path).1 (s.openFile d' path).1 ∧
      Disk.Even (fun d file => d.Holds base (ns ++ [x]) ⟨file, 0⟩) (s.openFile d path)
        (s.openFile d' path) := by
  have htends := (tends_openFile h.left hpath).1
  have htends' := (tends_openFile h.right hpath).1
  have hadded : ∀ e : Disk, (e.addFile (base ++ (ns ++ [x])) .empty).get? (base ++ (ns ++ [x])) =
      some (.file e.nextSerial .empty) :=
    fun e => (e.get?_addFile (by simp) _ _).trans (if_pos rfl)
  have hopen := openFile_eq h.left hpath hshort hdir
  have hopen' := openFile_eq h.right hpath hshort hdir'
  cases hcheck : (s.filePath (ns ++ [x])).check with
  | error cause =>
    rw [hcheck] at hopen hopen'
    rw [hopen, hopen']
    exact ⟨h, .inl ⟨.io cause, rfl, rfl⟩⟩
  | ok u =>
    obtain ⟨hd, hd'⟩ | ⟨hd, hd'⟩ | ⟨serial, serial', content, hd, hd'⟩ := h.get?_cases
    · rw [hcheck, hd] at hopen
      rw [hcheck, hd'] at hopen'
      rw [hopen] at htends ⊢
      rw [hopen'] at htends' ⊢
      refine ⟨h.both htends htends' ?_, .inr ⟨_, _, ⟨rfl, rfl, .empty, hadded d⟩, rfl, rfl, .empty,
        hadded d'⟩⟩
      rw [hadded, hadded]
      rfl
    · rw [hcheck, hd] at hopen
      rw [hcheck, hd'] at hopen'
      rw [hopen, hopen']
      exact ⟨h, .inl ⟨.io .isDirectory, rfl, rfl⟩⟩
    · rw [hcheck, hd] at hopen
      rw [hcheck, hd'] at hopen'
      rw [hopen, hopen']
      exact ⟨h, .inr ⟨_, _, ⟨rfl, rfl, content, hd⟩, rfl, rfl, content, hd'⟩⟩

/-- Bytes that are laid into the file in both trees. -/
theorem place (h : s.Alike base names d d') {w w' : FileWriter} (hw : d.Holds base names w)
    (hw' : d'.Holds base names w') (position : Nat) (bytes : Bytes) :
    s.Alike base names (d.place w.file position bytes) (d'.place w'.file position bytes) ∧
      (d.place w.file position bytes).Holds base names w ∧
      (d'.place w'.file position bytes).Holds base names w' := by
  have hplaced : ∀ {a : Disk} {v : FileWriter} {content : Content}, v.file.loc = base ++ names →
      a.get? (base ++ names) = some (.file v.file.serial content) →
      (a.place v.file position bytes).get? (base ++ names) =
        some (.file v.file.serial (content.overlay position bytes)) := by
    intro a v content hloc hthere
    rw [Disk.place, hloc, hthere]
    dsimp only
    rw [if_pos rfl, Disk.get?_set a (Disk.ne_nil_of_get? hthere), if_pos rfl]
  obtain ⟨hloc, content, hthere⟩ := hw
  obtain ⟨hloc', content', hthere'⟩ := hw'
  have hafter := hplaced hloc hthere
  have hafter' := hplaced hloc' hthere'
  refine ⟨h.both (tends_place h.left hloc position bytes) (tends_place h.right hloc' position bytes)
    ?_, ⟨hloc, _, hafter⟩, hloc', _, hafter'⟩
  have hsame := h.file
  rw [hthere, hthere'] at hsame
  cases hsame
  rw [hafter, hafter']
  rfl

/-- A deletion answers the same in both trees. -/
theorem delete (h : s.Alike base (ns ++ [x]) d d') (hpath : resolve path = .ok (ns ++ [x]))
    (hshort : Short (ns ++ [x])) :
    (s.delete d path).2 = (s.delete d' path).2 ∧
      s.Alike base (ns ++ [x]) (s.delete d path).1 (s.delete d' path).1 := by
  have htends := tends_delete h.left hpath
  have htends' := tends_delete h.right hpath
  cases hcheck : (s.filePath (ns ++ [x])).check with
  | error cause =>
    rw [delete_of_unchecked h.left hpath hcheck, delete_of_unchecked h.right hpath hcheck]
    exact ⟨rfl, h⟩
  | ok u =>
    by_cases hblocked : d.Blocked base (ns ++ [x])
    · rw [delete_of_blocked h.left hpath hshort hcheck hblocked, delete_of_blocked h.right hpath hshort
        hcheck ((h.blocked (List.prefix_refl _)).mp hblocked)]
      exact ⟨rfl, h⟩
    · have hdelete := delete_of_free h.left hpath hshort hcheck hblocked
      have hdelete' := delete_of_free h.right hpath hshort hcheck
        (mt (h.blocked (List.prefix_refl _)).mpr hblocked)
      obtain ⟨hd, hd'⟩ | ⟨hd, hd'⟩ | ⟨serial, serial', content, hd, hd'⟩ := h.get?_cases
      · rw [hdelete, hdelete', hd, hd']
        exact ⟨rfl, h⟩
      · rw [hdelete, hdelete', hd, hd']
        exact ⟨rfl, h⟩
      · rw [hd] at hdelete
        rw [hd'] at hdelete'
        rw [hdelete] at htends ⊢
        rw [hdelete'] at htends' ⊢
        refine ⟨rfl, h.both htends htends' ?_⟩
        rw [Disk.get?_erase d (by simp), Disk.get?_erase d' (by simp), if_pos rfl, if_pos rfl]

end Alike

end Storage

namespace Delivery

/-- Two deliveries at the same point, each with what it needs in its tree. -/
inductive Abreast (base names : Location) (d d' : Disk) : Delivery → Delivery → Prop where
  | directories : Abreast base names d d' directories directories
  | opening (hdir : d.get? (base ++ names.dropLast) = some .directory)
      (hdir' : d'.get? (base ++ names.dropLast) = some .directory) :
      Abreast base names d d' opening opening
  | seeking {w w' : FileWriter} (hw : d.Holds base names w) (hw' : d'.Holds base names w') :
      Abreast base names d d' (seeking w) (seeking w')
  | writing {w w' : FileWriter} (hw : d.Holds base names w) (hw' : d'.Holds base names w')
      (done : Nat) : Abreast base names d d' (writing w done) (writing w' done)

/-- What an operation comes to in both trees: the deliveries go on abreast, or end alike. -/
inductive Keeps (base names : Location) : Disk × Step → Disk × Step → Prop where
  | onward {d d' : Disk} {x x' : Delivery} (h : Abreast base names d d' x x') :
      Keeps base names (d, .onward x) (d', .onward x')
  | failed (d d' : Disk) (cause : OsError) :
      Keeps base names (d, .ended (.error cause)) (d', .ended (.error cause))
  | done {d d' : Disk} {w w' : FileWriter} (hw : d.Holds base names w)
      (hw' : d'.Holds base names w') :
      Keeps base names (d, .ended (.ok w)) (d', .ended (.ok w'))

variable {s : Storage} {base names : Location} {d d' : Disk} {x x' : Delivery} {path : String}

/-- An operation of both deliveries leaves the trees alike and the deliveries abreast. -/
theorem Abreast.advance (hx : Abreast base names d d' x x') (h : s.Alike base names d d')
    (hpath : Storage.resolve path = .ok names) (hshort : Storage.Short names) (f : Fragment) :
    s.Alike base names (x.advance s path f d).1 (x'.advance s path f d').1 ∧
      Keeps base names (x.advance s path f d) (x'.advance s path f d') := by
  obtain ⟨hsome, -⟩ := Storage.resolve_eq_ok hpath
  obtain ⟨ns, y, rfl⟩ := (List.eq_nil_or_concat names).resolve_left hsome
  rw [List.concat_eq_append] at *
  cases hx with
  | directories =>
    obtain ⟨hafter, heven⟩ := h.makeWay hpath hshort
    unfold Delivery.advance
    rcases hmake : s.makeWay d path with ⟨e, result⟩
    rcases hmake' : s.makeWay d' path with ⟨e', result'⟩
    rw [hmake, hmake'] at hafter heven
    obtain ⟨err, rfl, rfl⟩ | ⟨_, _, ⟨rfl, hdir⟩, rfl, hdir'⟩ := heven
    · exact ⟨hafter, .failed e e' _⟩
    · refine ⟨hafter, .onward (.opening ?_ ?_)⟩
      · rwa [List.dropLast_concat]
      · rwa [List.dropLast_concat]
  | opening hdir hdir' =>
    rw [List.dropLast_concat] at hdir hdir'
    obtain ⟨hafter, heven⟩ := h.openFile hpath hshort hdir hdir'
    unfold Delivery.advance
    rcases hopen : s.openFile d path with ⟨e, result⟩
    rcases hopen' : s.openFile d' path with ⟨e', result'⟩
    rw [hopen, hopen'] at hafter heven
    obtain ⟨err, rfl, rfl⟩ | ⟨_, _, ⟨rfl, hw⟩, rfl, hw'⟩ := heven
    · exact ⟨hafter, .failed e e' _⟩
    · exact ⟨hafter, .onward (.seeking hw hw')⟩
  | seeking hw hw' =>
    unfold Delivery.advance
    dsimp only
    cases Disk.seek f.position with
    | error cause => exact ⟨h, .failed d d' cause⟩
    | ok u =>
      cases f.isEmpty with
      | true => exact ⟨h, .done hw hw'⟩
      | false => exact ⟨h, .onward (.writing hw hw' 0)⟩
  | writing hw hw' done =>
    obtain ⟨hafter, hheld, hheld'⟩ := h.place hw hw' (f.position + done)
      (f.bytes.extract done (done + FileWriter.burst))
    unfold Delivery.advance
    dsimp only
    split
    · exact ⟨hafter, .done hheld hheld'⟩
    · exact ⟨hafter, .onward (.writing hheld hheld' _)⟩

end Delivery

end ResumableUpload
