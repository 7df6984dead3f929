import ResumableUpload.Proofs.Course.Length
import ResumableUpload.Proofs.Disk.Accord

/-
  Filed — what is written of an upload is in a file

  An upload is complete by its figures alone: they are compared with the
  declared size, and the disk is not asked. The file comes into being when the
  first fragment is written, an empty one too. Where calls come one after
  another and no file is deleted by one of them, it stays; so an upload of which
  something was written has its file. An upload that declares no bytes is
  complete when it is registered, and has none until a fragment comes.

  What is held:
    1. `Course.Keeping` — the rule that calls come one after another, and none
       discards an upload.
    2. `Storage.Stands` — the file of a path is there; `Course.Filed` — so are
       those of all uploads of which something was written.

  What is proved:
    1. `Tended.Works.grown` — where nothing is discarded, files stay.
    2. `Filed.step`, `filed_run` — what was written stays in its file.
    3. `completed_upload_has_file` — an upload that is complete has its file, if
       something was declared or written.
    4. `complete_without_file` — and need not have one else.
-/

namespace ResumableUpload

/-- The file of a storage path is there, and the way to it is clear. -/
def Storage.Stands (s : Storage) (d : Disk) (base : Location) (path : String) : Prop :=
  ∃ names, Storage.resolve path = .ok names ∧ s.Clear d base names ∧ d.HoldsFile (base ++ names)

theorem Storage.Stands.grown {s : Storage} {d d' : Disk} {base : Location} {path : String}
    (h : s.Stands d base path) (hsteady : Disk.Steady d d') (hgrown : Disk.Grown d d') :
    s.Stands d' base path := by
  obtain ⟨names, hpath, hclear, serial, content, hfile⟩ := h
  obtain ⟨e, he, hsame⟩ := hgrown _ _ hfile
  cases hsame
  exact ⟨names, hpath, hclear.steady hsteady, _, _, he⟩

namespace Course

variable {c : Course} {m : Move} {base : Location}

/-- Calls come one after another, and none of them discards an upload. -/
structure Keeping (c : Course) (m : Move) : Prop extends Orderly c m where
  kept : ∀ path, m ≠ .discard path

theorem Keeping.of_pump {n : Nat} (hm : m.pump? = some n) : c.Keeping m where
  toOrderly := .of_pump hm
  kept := by
    rintro path rfl
    cases hm

/-- Where nothing is discarded, every file stays. -/
theorem Tended.Works.grown (h : Tended.Works base c m) (hkept : ∀ path, m ≠ .discard path) :
    Disk.Grown c.engine.disk (c.step m).engine.disk := by
  cases h with
  | idle hdisk =>
    rw [hdisk]
    exact .refl _
  | fills _ hfills => exact hfills.grown
  | @deletes path _ hm _ _ _ _ => exact absurd hm (hkept path)

/-- Every upload of which something was written has its file. -/
def Filed (base : Location) (c : Course) : Prop :=
  ∀ q r, c.engine.registry.find? q = some r → (c.history.of r.id).ended .written ≠ [] →
    c.engine.storage.Stands c.engine.disk base q

theorem Filed.step (h : c.Filed base) (horder : c.InOrder base) (hm : Keeping c m) :
    (c.step m).Filed base := by
  have hstorage : (c.step m).engine.storage = c.engine.storage := (later_step c m).engine.storage
  have hworks := horder.works hm.toOrderly
  intro q s hs hsome
  obtain ⟨x, hx⟩ := List.exists_mem_of_ne_nil _ hsome
  rw [hstorage]
  obtain ⟨r, hr, honward⟩ | hregisters := record_of_step horder.sound horder.figured hs
  · rcases written_of_step hx with hold | ⟨n, u, w, rfl, hu, hoperate, -, o, ho, hoid⟩
    · -- what was written before is in a file, which stays
      rw [honward.id] at hold
      exact (h q r hr (List.ne_nil_of_mem hold)).grown hworks.steady (hworks.grown hm.kept)
    · -- the pump serves this upload, and leaves the file of its path open
      have hpath : u.flight.pump.path = q :=
        horder.sound.identity.id_inj _ _ o r ho hr (hoid.trans honward.id)
      obtain ⟨-, names, -, hnames, -⟩ := horder.writes u hu
      have hadvanced := horder.tended.operate hu hnames
      rw [hoperate] at hadvanced
      obtain ⟨hopen, -⟩ := hadvanced.ended w rfl
      obtain ⟨content, hthere⟩ := hopen.there
      rw [hopen.loc] at hthere
      exact ⟨names, hpath ▸ hnames, hopen.clear, _, content, hthere⟩
  · -- nothing is written of an upload that was registered by the move
    obtain ⟨hmem, -⟩ := Log.mem_ended.mp hx
    rw [show s.id = s.ticket.id from rfl, log_of_registers horder.sound.identity hregisters] at hmem
    split at hmem <;> simp at hmem

theorem filed_run {e : Engine} (hempty : e.registry = .empty)
    (hrooted : e.storage.Rooted e.disk base) {moves : List Move} (h : (new e).Obeys Keeping moves) :
    ((new e).run moves).Filed base := by
  induction moves using List.reverseRecOn with
  | nil =>
    intro q r hr
    rw [show ((new e).run []).engine.registry = .empty from hempty, Registry.find?_empty] at hr
    cases hr
  | append_singleton moves m ih =>
    obtain ⟨hbefore, hm, -⟩ := obeys_append.mp h
    rw [run_concat]
    exact (ih hbefore).step
      (inOrder_run hempty hrooted (hbefore.imp fun _ _ hkeeping => hkeeping.toOrderly)) hm

end Course

/-- A complete upload has its file, if it declares some bytes or something was written. Whatever calls came
one after another, as long as none discarded an upload: at every moment each registered upload that is
complete has a regular file at its destination, unless it declares no bytes and no fragment of it was
written. -/
theorem completed_upload_has_file (disk : Disk) (storage : Storage) (writers maxSize capacity : Nat)
    (base : Location) (hrooted : storage.Rooted disk base) (moves : List Move)
    (hmoves : (Course.new (.new disk storage writers maxSize capacity)).Obeys Course.Keeping moves) :
    let c := (Course.new (.new disk storage writers maxSize capacity)).run moves
    ∀ q r, c.engine.registry.find? q = some r → r.completed = true →
      (r.size = 0 → r.coverage.ranges ≠ []) → storage.hasFile c.engine.disk q = true := by
  intro c q r hr hcompleted hsome
  have hstorage : c.engine.storage = storage :=
    (Course.later_run (.new (.new disk storage writers maxSize capacity)) moves).engine.storage
  have hledger := ledgers_run (.new disk storage writers maxSize capacity) rfl moves q r hr
  have hfigures := Course.figured_run (.new disk storage writers maxSize capacity) rfl moves q r hr
  -- either way some fragment was written, be it an empty one
  have hwritten : (c.history.of r.id).ended .written ≠ [] := by
    intro hnone
    have hranges : r.coverage.ranges = [] := by rw [hledger.coverage]; exact hnone ▸ rfl
    have hsaved : r.saved = 0 := by rw [hledger.saved]; exact hnone ▸ rfl
    have hsize := hfigures.completed.mp hcompleted
    exact hsome (by omega) hranges
  obtain ⟨names, hpath, hclear, serial, content, hfile⟩ :=
    Course.filed_run (e := .new disk storage writers maxSize capacity) rfl hrooted hmoves q r hr hwritten
  have hfound := (Course.inOrder_run (e := .new disk storage writers maxSize capacity) rfl hrooted
    (hmoves.imp fun _ _ hkeeping => hkeeping.toOrderly)).tended.rooted.found
  rw [show ((Course.new _).run moves).engine.storage = storage from hstorage] at hclear hfound
  exact (Storage.answers_of_file hfound hpath hclear hfile).1

/-- An upload of no bytes, of which an empty fragment is written, and one of four bytes. -/
def noneThenFour : List Move :=
  [.init "a" 0 0 "", .submit "a" ⟨0, #[]⟩, .turn 0, .turn 0, .turn 0, .init "b" 4 0 "",
    .submit "b" ⟨0, #[1, 2, 3, 4]⟩, .turn 1, .turn 1, .turn 1, .turn 1]

def bothWritten : Course := (Course.new (.new emptyBase ⟨"up"⟩ 1 100 16)).run noneThenFour

theorem noneThenFour_keeping :
    (Course.new (.new emptyBase ⟨"up"⟩ 1 100 16)).Obeys Course.Keeping noneThenFour :=
  ⟨⟨⟨nofun, nofun, fun _ => rfl⟩, nofun⟩, ⟨⟨nofun, nofun, fun _ => rfl⟩, nofun⟩, .of_pump rfl,
    .of_pump rfl, .of_pump rfl, ⟨⟨nofun, nofun, fun _ => rfl⟩, nofun⟩,
    ⟨⟨nofun, nofun, fun _ => rfl⟩, nofun⟩, .of_pump rfl, .of_pump rfl, .of_pump rfl, .of_pump rfl,
    trivial⟩

theorem noneThenFour_there : (bothWritten.engine.registry.find? "a").isSome = true ∧
    (bothWritten.engine.registry.find? "b").isSome = true := by decide

/-- Both are complete, and both have their files. -/
theorem both_have_files :
    let a := (bothWritten.engine.registry.find? "a").get noneThenFour_there.1
    let b := (bothWritten.engine.registry.find? "b").get noneThenFour_there.2
    a.size = 0 ∧ a.completed = true ∧ (Storage.mk "up").hasFile bothWritten.engine.disk "a" = true ∧
      b.size = 4 ∧ b.completed = true ∧
      (Storage.mk "up").hasFile bothWritten.engine.disk "b" = true := by
  intro a b
  have hfiles := completed_upload_has_file emptyBase ⟨"up"⟩ 1 100 16 ["up"] emptyBase_rooted noneThenFour
    noneThenFour_keeping
  refine ⟨by decide, by decide, ?_, by decide, by decide, ?_⟩
  · exact hfiles "a" a (Option.some_get noneThenFour_there.1).symm (by decide) (by decide)
  · exact hfiles "b" b (Option.some_get noneThenFour_there.2).symm (by decide) (by decide)

/-- An upload that declares no bytes is complete as it is registered, and has no file. -/
theorem complete_without_file :
    ¬ ∀ (disk : Disk) (storage : Storage) (writers maxSize capacity : Nat) (base : Location),
      storage.Rooted disk base → (∀ names, names ≠ [] → disk.get? (base ++ names) = none) →
      ∀ moves, (Course.new (.new disk storage writers maxSize capacity)).Obeys Course.Keeping moves →
      let c := (Course.new (.new disk storage writers maxSize capacity)).run moves
      ∀ q r, c.engine.registry.find? q = some r → r.completed = true →
        storage.hasFile c.engine.disk q = true := by
  intro h
  have hfile := h emptyBase ⟨"up"⟩ 1 100 16 ["up"] emptyBase_rooted (fun _ => emptyBase_free)
    [.init "a" 0 0 ""] ⟨⟨⟨nofun, nofun, fun _ => rfl⟩, nofun⟩, trivial⟩ "a" (.new 0 "a" 0 0 "") rfl
    rfl
  revert hfile
  decide

end ResumableUpload
