import ResumableUpload.Proofs.Disk.Growth
import ResumableUpload.Storage

/-
  Opening — a file that was opened may be opened again

  To open a file for writing makes the directories above it, and the file
  itself where it is missing. What was there stays. Once it has been opened, to
  open it again changes nothing and leads to the same file, whatever was written
  to it meanwhile.

  What is held:
    1. `Made` — a tree after directories were made.
    2. `Opened` — a file that a storage path leads to, with what it holds.

  What is proved:
    1. `makeAll_keeps` — what the making of directories keeps, wherever it stops;
       `makeAll_made` — so nothing but directories comes.
    2. `makeAll_eq_ok`, `makeAll_again` — directories are made once.
    3. `opened_of_openForWrite` — an opened file holds what it held, or nothing.
    4. `Opened.place` — and after a write, what was written over it.
-/

namespace ResumableUpload

namespace Disk

/-- Directories were made where nothing was, and nothing else changed. -/
def Made (d d' : Disk) : Prop :=
  ∀ q, d'.get? q = d.get? q ∨ (d.get? q = none ∧ d'.get? q = some .directory)

theorem Made.refl (d : Disk) : Made d d := fun _ => .inl rfl

theorem Made.trans {a b c : Disk} (hab : Made a b) (hbc : Made b c) : Made a c := by
  intro q
  rcases hbc q with hq | ⟨hnone, hdir⟩
  · rw [hq]
    exact hab q
  · rcases hab q with hq | ⟨-, hdir'⟩
    · rw [hq] at hnone
      exact .inr ⟨hnone, hdir⟩
    · rw [hnone] at hdir'
      cases hdir'

theorem Made.contentOf?_eq {d d' : Disk} (h : Made d d') (loc : Location) :
    d'.contentOf? loc = d.contentOf? loc := by
  rcases h loc with hsame | ⟨hnone, hdir⟩
  · rw [contentOf?, contentOf?, hsame]
  · rw [contentOf?, contentOf?, hnone, hdir]

theorem made_set {d : Disk} {loc : Location} (hfree : d.get? loc = none) :
    Made d (d.set loc .directory) := by
  have hloc : loc ≠ [] := by
    rintro rfl
    simp at hfree
  intro q
  rw [get?_set d hloc]
  split
  · rename_i hq
    rw [hq]
    exact .inr ⟨hfree, rfl⟩
  · exact .inl rfl

theorem unlessThere_eq_ok {d d' : Disk} {p : OsPath} {cause : OsError}
    (h : d.unlessThere p cause = (d', .ok ())) : d' = d ∧ d.isDirectory p = true := by
  unfold unlessThere at h
  split at h
  · rename_i hthere
    cases h
    exact ⟨rfl, hthere⟩
  · cases h

theorem unlessThere_disk (d : Disk) (p : OsPath) (cause : OsError) : (d.unlessThere p cause).1 = d := by
  unfold unlessThere
  split <;> rfl

/-- What holds, and goes on to hold as each directory of a list is made, holds once all are made, or the
making has stopped half way. -/
theorem makeAll_keeps {P : Disk → Prop} {ps : List OsPath} {d : Disk}
    (hmake : ∀ p ∈ ps, ∀ e e', P e → e.makeDirectory p = .ok e' → P e') (h : P d) :
    P (d.makeAll ps).1 := by
  induction ps generalizing d with
  | nil => exact h
  | cons p rest ih =>
    have hone := hmake p List.mem_cons_self
    rw [makeAll]
    split
    · rename_i made hmade
      exact hone d made h hmade
    · -- what the directory lies in is missing: it is made first, then the directory once more
      have hrest := ih (fun q hq => hmake q (List.mem_cons_of_mem p hq)) h
      split
      · rename_i between cause hmade
        rw [hmade] at hrest
        exact hrest
      · rename_i between hmade
        rw [hmade] at hrest
        split
        · rename_i made hagain
          exact hone between made hrest hagain
        · rw [unlessThere_disk]
          exact hrest
    · rw [unlessThere_disk]
      exact h

/-- Directories come where nothing was, also where the making stops half way. -/
theorem makeAll_made (d : Disk) (ps : List OsPath) : Made d (d.makeAll ps).1 := by
  refine makeAll_keeps (fun p _ e e' hmade hmake => ?_) (.refl d)
  obtain ⟨-, loc, hfree, rfl⟩ := makeDirectory_eq_ok hmake
  exact hmade.trans (made_set hfree)

/-- To make directories makes the first one listed, and whatever it needs. -/
theorem makeAll_eq_ok {ps : List OsPath} {d d' : Disk} (h : d.makeAll ps = (d', .ok ())) :
    Made d d' ∧ ∀ p ∈ ps.head?, d'.isDirectory p = true := by
  have hmade := makeAll_made d ps
  rw [h] at hmade
  refine ⟨hmade, fun p hp => ?_⟩
  obtain ⟨rest, rfl⟩ := List.head?_eq_some_iff.mp hp
  rw [makeAll] at h
  split at h
  · rename_i made hmake
    cases h
    exact (makeDirectory_eq_ok hmake).1
  · split at h
    · cases h
    · split at h
      · rename_i made hmake
        cases h
        exact (makeDirectory_eq_ok hmake).1
      · obtain ⟨rfl, hthere⟩ := unlessThere_eq_ok h
        exact hthere
  · obtain ⟨rfl, hthere⟩ := unlessThere_eq_ok h
    exact hthere

theorem makeAll_again {d : Disk} {ps : List OsPath} (h : ∀ p ∈ ps.head?, d.isDirectory p = true) :
    d.makeAll ps = (d, .ok ()) := by
  cases ps with
  | nil => rfl
  | cons p rest =>
    have hthere : d.isDirectory p = true := h p rfl
    rw [makeAll, makeDirectory_of_isDirectory hthere]
    dsimp only
    rw [unlessThere, if_pos hthere]

theorem locateFile_eq_ok {d : Disk} {p : OsPath} {x : Place} (h : d.locateFile p = .ok x) :
    p.check = .ok () ∧ d.locateFileFrom maxLinks [] p = .ok x := by
  unfold locateFile at h
  split at h
  · cases h
  · rename_i hcheck
    exact ⟨hcheck, h⟩

/-- A file that may have been created is opened where it lies, once the tree has grown. -/
theorem openForWriting_again {d e : Disk} {p : OsPath} {x : Place} {loc : Location} {serial : Nat}
    {content : Content} (hgrown : Grown d e) (hx : d.locateFile p = .ok x)
    (hthere : e.get? loc = some (.file serial content))
    (hcase : x = .absent loc ∨ ∃ old, x = .present loc (.file serial old)) :
    e.openForWriting p = .ok (e, ⟨loc, serial⟩) := by
  obtain ⟨hcheck, hfrom⟩ := locateFile_eq_ok hx
  obtain ⟨y, hy, hkept⟩ := locateFileFrom_grown hgrown hfrom (by
    intro q hq
    rcases hcase with rfl | ⟨old, rfl⟩
    · cases hq
      exact ⟨_, hthere, rfl⟩
    · cases hq)
  have hlocate : e.locateFile p = .ok y := by
    rw [locateFile, hcheck]
    exact hy
  rw [openForWriting, hlocate]
  rcases hcase with rfl | ⟨old, rfl⟩
  · cases hkept with
    | absent hthere' hlink =>
      rw [hthere] at hthere'
      cases hthere'
      rfl
  · cases hkept with
    | present _ hsame =>
      cases hsame
      rfl

/-- A file that was opened for writing is there; it holds what it held, or nothing. To open it once
more leads to it again. -/
theorem openForWriting_eq_ok {d d' : Disk} {p : OsPath} {file : OpenFile}
    (h : d.openForWriting p = .ok (d', file)) :
    Grown d d' ∧
      d'.get? file.loc = some (.file file.serial ((d.contentOf? file.loc).getD .empty)) ∧
      ∀ e, Grown d' e → e.openForWriting p = .ok (e, file) := by
  unfold openForWriting at h
  split at h
  · cases h
  · rename_i loc serial content hlocate
    cases h
    have hthere := get?_of_locateFileFrom_file (locateFile_eq_ok hlocate).2
    refine ⟨.refl _, ?_, ?_⟩
    · show d.get? loc = some (.file serial ((d.contentOf? loc).getD .empty))
      rw [contentOf?, hthere]
      rfl
    · intro e hgrown
      obtain ⟨e', he', hsame⟩ := hgrown loc _ hthere
      cases hsame
      exact openForWriting_again hgrown hlocate he' (.inr ⟨content, rfl⟩)
  · cases h
  · rename_i loc hlocate
    cases h
    have hfree := get?_of_locateFileFrom_absent (locateFile_eq_ok hlocate).2
    have hloc : loc ≠ [] := by
      rintro rfl
      simp at hfree
    have hgrown : Grown d (d.addFile loc .empty) := grown_set hfree _
    have hthere : (d.addFile loc .empty).get? loc = some (.file d.nextSerial .empty) := by
      rw [get?_addFile d hloc, if_pos rfl]
    refine ⟨hgrown, ?_, ?_⟩
    · show (d.addFile loc .empty).get? loc =
        some (.file d.nextSerial ((d.contentOf? loc).getD .empty))
      rw [hthere, contentOf?, hfree]
      rfl
    · intro e he
      obtain ⟨e', he', hsame⟩ := he loc _ hthere
      cases hsame
      exact openForWriting_again (hgrown.trans he) hlocate he' (.inl rfl)

end Disk

/-- A file that the path of a storage leads to, however the tree grows, and what it holds. -/
structure Opened (s : Storage) (path : String) (file : OpenFile) (d : Disk) (c : Content) : Prop where
  there : d.get? file.loc = some (.file file.serial c)
  again : ∀ d', Disk.Grown d d' → s.openForWrite d' path = (d', .ok file)

/-- A file that is opened holds what it held, or nothing. -/
theorem opened_of_openForWrite {s : Storage} {d d' : Disk} {path : String} {file : OpenFile}
    (h : s.openForWrite d path = (d', .ok file)) :
    Opened s path file d' ((d.contentOf? file.loc).getD .empty) := by
  unfold Storage.openForWrite Storage.makeWay Storage.openFile at h
  cases hresolve : Storage.resolve path with
  | error err => simp [hresolve] at h
  | ok names =>
    simp only [hresolve] at h
    cases hparents : d.makeParents (s.filePath names) with
    | mk between result =>
      cases result with
      | error cause => simp [hparents] at h
      | ok u =>
        simp only [hparents] at h
        cases hopen : between.openForWriting (s.filePath names) with
        | error cause => simp [hopen] at h
        | ok x =>
          obtain ⟨after, file'⟩ := x
          simp only [hopen, Prod.mk.injEq, Except.ok.injEq] at h
          obtain ⟨rfl, rfl⟩ := h
          obtain ⟨hmade, hhead⟩ := Disk.makeAll_eq_ok hparents
          obtain ⟨hgrown, hthere, hagain⟩ := Disk.openForWriting_eq_ok hopen
          rw [hmade.contentOf?_eq] at hthere
          refine ⟨hthere, ?_⟩
          intro e he
          have hparents' : e.makeParents (s.filePath names) = (e, .ok ()) :=
            Disk.makeAll_again fun p hp =>
              Disk.isDirectory_grown (hgrown.trans he) (hhead p hp)
          unfold Storage.openForWrite Storage.makeWay Storage.openFile
          simp only [hresolve, hparents', hagain e he]

theorem Opened.place {s : Storage} {path : String} {file : OpenFile} {d : Disk} {c : Content}
    (h : Opened s path file d c) (position : Nat) (bytes : Bytes) :
    Opened s path file (d.place file position bytes) (c.overlay position bytes) := by
  constructor
  · rw [Disk.place, h.there]
    dsimp only
    rw [if_pos rfl, Disk.get?_set d (Disk.ne_nil_of_get? h.there), if_pos rfl]
  · intro d' hgrown
    exact h.again d' ((Disk.grown_place d file position bytes).trans hgrown)

end ResumableUpload
