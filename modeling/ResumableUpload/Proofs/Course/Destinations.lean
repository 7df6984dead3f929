import ResumableUpload.Proofs.Course.Figures
import ResumableUpload.Proofs.Course.Outstanding

/-
  Destinations — which uploads go to one file

  An upload is registered under a path text, and no two have one text. But a
  file has many spellings: empty pieces, and pieces `.` that do not come first,
  lead nowhere, so `a/b` and `a//b` name one file. What is asked before an
  upload is registered is whether its text is in use, not whether its file is.
  So uploads share a file where they spell it differently, and nowhere else.

  What is proved:
    1. `mem_pathsTo`, `nodup_pathsTo` — the registered spellings of a file.
    2. `sharing_step` — a file gets another spelling only where a move asks for
       it; `pathsTo_of_init` — and gets it whenever one does.
    3. `destination_shared_only_by_respelling` — the same, said of runs.
    4. `one_file_two_uploads` — uploads do share files.
-/

namespace ResumableUpload

theorem Storage.toOption_resolve {path : String} {file : Location} :
    (resolve path).toOption = some file ↔ resolve path = .ok file := by
  cases resolve path <;> simp [Except.toOption]

namespace Registry

theorem mem_paths {g : Registry} {q : String} : q ∈ g.paths ↔ ∃ r, g.find? q = some r := by
  simp only [paths, List.mem_map, find?_eq_some_iff]

theorem nodup_paths (g : Registry) : g.paths.Nodup := by
  rw [paths, List.Nodup, List.pairwise_map]
  exact g.sorted.imp Std.ne_of_lt

theorem known_of_pending {g : Registry} {q : String} (hq : q ∈ g.pendingPaths) :
    g.find? q ≠ none := by
  obtain ⟨r, hr, rfl⟩ := List.mem_map.mp hq
  rw [Registry.find?_eq_some_iff.mpr ⟨(List.mem_filter.mp hr).1, rfl⟩]
  exact Option.some_ne_none r

end Registry

namespace Course

variable {c : Course} {file : Location} {p q : String} {m : Move}

theorem mem_pathsTo : q ∈ c.pathsTo file ↔
    (∃ r, c.engine.registry.find? q = some r) ∧ Storage.resolve q = .ok file := by
  rw [pathsTo, List.mem_filter, Registry.mem_paths, decide_eq_true_iff, Storage.toOption_resolve]

theorem nodup_pathsTo (c : Course) (file : Location) : (c.pathsTo file).Nodup :=
  (Registry.nodup_paths _).filter _

theorem length_pathsTo_le_one (hsame : ∀ p ∈ c.pathsTo file, ∀ q ∈ c.pathsTo file, p = q) :
    (c.pathsTo file).length ≤ 1 := by
  cases hl : c.pathsTo file with
  | nil => exact Nat.zero_le _
  | cons p rest =>
    have hp : p ∈ c.pathsTo file := by
      rw [hl]
      exact List.mem_cons_self
    have hsub : c.pathsTo file ⊆ [p] := fun q hq => List.mem_singleton.mpr (hsame q hq p hp)
    rw [← hl]
    exact ((c.nodup_pathsTo file).subperm hsub).length_le

/-- A file gets another spelling only by a move that asks for it; the others it had before. -/
theorem sharing_step (hsound : c.Sound) (hfigured : c.Figured) (hne : p ≠ q)
    (hp : p ∈ (c.step m).pathsTo file) (hq : q ∈ (c.step m).pathsTo file)
    (hnew : p ∉ c.pathsTo file) : m.opens = some p ∧ q ∈ c.pathsTo file := by
  obtain ⟨⟨r, hr⟩, hpfile⟩ := mem_pathsTo.mp hp
  obtain ⟨⟨s, hs⟩, hqfile⟩ := mem_pathsTo.mp hq
  have hregisters : c.registers m = some r.ticket := by
    refine (record_of_step hsound hfigured hr).resolve_left ?_
    rintro ⟨old, hold, -⟩
    exact hnew (mem_pathsTo.mpr ⟨⟨old, hold⟩, hpfile⟩)
  have hpath : r.ticket.path = p := Registry.path_of_find? hr
  refine ⟨?_, ?_⟩
  · rw [← hpath]
    exact (registers_eq_some hregisters).1
  · rcases record_of_step hsound hfigured hs with ⟨old, hold, -⟩ | hother
    · exact mem_pathsTo.mpr ⟨⟨old, hold⟩, hqfile⟩
    · -- a move registers one upload
      have hticket : r.ticket = s.ticket := Option.some.inj (hregisters.symm.trans hother)
      have hpq : p = q := by
        rw [← hpath, hticket]
        exact Registry.path_of_find? hs
      exact absurd hpq hne

/-- A spelling that is in use is refused. Any other is registered, whatever uploads go to the file
already. -/
theorem pathsTo_of_init {size : Nat} (hfile : Storage.resolve q = .ok file)
    (hsize : size ≤ c.engine.maxUploadSize) (owner : Int) (clientPath : String) :
    (q ∈ c.pathsTo file →
      c.engine.init q size owner clientPath = .error (.alreadyActive q)) ∧
    (q ∉ c.pathsTo file → ∀ p,
      p ∈ (c.step (.init q size owner clientPath)).pathsTo file ↔ p = q ∨ p ∈ c.pathsTo file) := by
  have hchecked : c.engine.checkNew q size = .ok () :=
    Engine.checkNew_eq_ok_iff.mpr ⟨⟨file, hfile⟩, hsize⟩
  obtain ⟨htaken, hfree⟩ := Engine.init_of_checked hchecked owner clientPath
  constructor
  · intro hq
    obtain ⟨⟨r, hr⟩, -⟩ := mem_pathsTo.mp hq
    exact htaken r hr
  · intro hq p
    have hnone : c.engine.registry.find? q = none := by
      refine Option.eq_none_iff_forall_ne_some.mpr fun r hr => ?_
      exact hq (mem_pathsTo.mpr ⟨⟨r, hr⟩, hfile⟩)
    obtain ⟨e, he⟩ := hfree hnone
    obtain ⟨registry, notice, hreg, rfl⟩ := Engine.init_eq_ok he
    have hregistry : (c.step (.init q size owner clientPath)).engine.registry = registry := by
      rw [step, he, registered]
      exact Engine.registry_announceIfEmpty _ _
    rw [mem_pathsTo, mem_pathsTo, hregistry, Registry.find?_register hreg]
    by_cases hpq : p = q
    · subst hpq
      simp [hfile]
    · simp [hpq]

end Course

/-- Uploads go to one file by different spellings of its path, and only so. Whatever the moves, a file is
named by no path text twice; it gets another spelling only by a move that asks for it, and such a move
is refused where the very text is in use, and only there. So a file of which the moves use one spelling
is the destination of one upload at most. -/
theorem destination_shared_only_by_respelling (disk : Disk) (storage : Storage)
    (writers maxSize capacity : Nat) (moves : List Move) :
    let c := (Course.new (.new disk storage writers maxSize capacity)).run moves
    (∀ q r, c.engine.registry.find? q = some r → ∃ file, q ∈ c.pathsTo file) ∧
    (∀ file, (c.pathsTo file).Nodup) ∧
    (∀ m file p q, p ≠ q → p ∈ (c.step m).pathsTo file → q ∈ (c.step m).pathsTo file →
      p ∉ c.pathsTo file → m.opens = some p ∧ q ∈ c.pathsTo file) ∧
    (∀ file q size owner clientPath, Storage.resolve q = .ok file → size ≤ maxSize →
      (q ∈ c.pathsTo file →
        c.engine.init q size owner clientPath = .error (.alreadyActive q)) ∧
      (q ∉ c.pathsTo file → ∀ p,
        p ∈ (c.step (.init q size owner clientPath)).pathsTo file ↔ p = q ∨ p ∈ c.pathsTo file)) ∧
    ∀ file, (∀ m ∈ moves, ∀ m' ∈ moves, ∀ p q, m.opens = some p → m'.opens = some q →
        Storage.resolve p = .ok file → Storage.resolve q = .ok file → p = q) →
      (c.pathsTo file).length ≤ 1 := by
  intro c
  have hsound : c.Sound := Course.sound_run (.new disk storage writers maxSize capacity) rfl moves
  have hfigured : c.Figured :=
    Course.figured_run (.new disk storage writers maxSize capacity) rfl moves
  have hadmitted : ∀ {q r}, c.engine.registry.find? q = some r →
      (∃ m ∈ moves, m.opens = some q) ∧ (∃ file, Storage.resolve q = .ok file) ∧
        r.size ≤ maxSize := fun hr =>
    Course.admitted_run (e := .new disk storage writers maxSize capacity) rfl hr
  have hlimit : c.engine.maxUploadSize = maxSize :=
    (Course.later_run (.new (.new disk storage writers maxSize capacity)) moves).engine.maxUploadSize
  refine ⟨?_, fun file => c.nodup_pathsTo file, ?_, ?_, ?_⟩
  · intro q r hr
    obtain ⟨-, ⟨file, hfile⟩, -⟩ := hadmitted hr
    exact ⟨file, Course.mem_pathsTo.mpr ⟨⟨r, hr⟩, hfile⟩⟩
  · exact fun m file p q => Course.sharing_step hsound hfigured
  · intro file q size owner clientPath hfile hsize
    exact Course.pathsTo_of_init hfile (by rwa [hlimit]) owner clientPath
  · intro file honce
    apply Course.length_pathsTo_le_one
    intro p hp q hq
    obtain ⟨⟨r, hr⟩, hpfile⟩ := Course.mem_pathsTo.mp hp
    obtain ⟨⟨s, hs⟩, hqfile⟩ := Course.mem_pathsTo.mp hq
    obtain ⟨⟨m, hm, hmp⟩, -⟩ := hadmitted hr
    obtain ⟨⟨m', hm', hmq⟩, -⟩ := hadmitted hs
    exact honce m hm m' hm' p q hmp hmq hpfile hqfile

/-- An upload of a file, which another spelling is registered for. -/
def registeredOnce : List Move := [.init "a/b" 4 0 ""]

/-- The spelling in use is refused, and another one is added. -/
theorem second_spelling_is_added :
    let c := (Course.new (.new .empty ⟨"up"⟩ 1 100 16)).run registeredOnce
    c.engine.init "a/b" 4 0 "" = .error (.alreadyActive "a/b") ∧
    ∀ p, p ∈ (c.step (.init "a//b" 4 0 "")).pathsTo ["a", "b"] ↔
      p = "a//b" ∨ p ∈ c.pathsTo ["a", "b"] := by
  intro c
  obtain ⟨-, -, -, hinit, -⟩ :=
    destination_shared_only_by_respelling .empty ⟨"up"⟩ 1 100 16 registeredOnce
  exact ⟨(hinit ["a", "b"] "a/b" 4 0 "" (by decide) (by decide)).1 (by decide),
    (hinit ["a", "b"] "a//b" 4 0 "" (by decide) (by decide)).2 (by decide)⟩

/-- The file of an upload is registered under another spelling. -/
def registeredTwice : List Move := [.init "a/b" 4 0 "", .init "a//b" 4 0 ""]

/-- Two uploads go to one file. -/
theorem one_file_two_uploads :
    ¬ ∀ (disk : Disk) (storage : Storage) (writers maxSize capacity : Nat) (moves : List Move)
      (file : Location) (p q : String),
      let c := (Course.new (.new disk storage writers maxSize capacity)).run moves
      p ∈ c.pathsTo file → q ∈ c.pathsTo file → p = q := by
  intro h
  have hsame := h .empty ⟨"up"⟩ 1 100 16 registeredTwice ["a", "b"] "a/b" "a//b" (by decide) (by decide)
  revert hsame
  decide

end ResumableUpload
