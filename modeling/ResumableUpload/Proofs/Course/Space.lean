import ResumableUpload.Proofs.Course.Destinations
import ResumableUpload.Proofs.Course.Orderly
import ResumableUpload.Proofs.Registry.Totals
import Mathlib.Algebra.Order.BigOperators.Group.Finset
import Mathlib.Order.Lattice.Nat

/-
  Space — the dedicated space is never overcommitted

  An upload is admitted if what is on disk, what is reserved and its own size
  fit the dedicated space. That sum does not stay: writes add to the disk what
  is still reserved, a removal drops the reservation and keeps the bytes, and
  uploads to one file reserve its bytes several times. What stays is the sum,
  over the files, of the length of the file or the greatest size declared for
  it, whichever is more: a write moves bytes from one to the other, and all else
  only takes away.

  What is held:
    1. `Registry.declared` — the greatest size that uploads to a file declare.
    2. `Registry.pledged` — the bytes by which files are still to grow.
    3. `Course.Within` — calls one after another, that register within the
       dedicated space only.

  What is proved:
    1. `pledged_le_reserved` — what is pledged is reserved.
    2. `load_touches`, `pledged_mono` — what is in use and what is pledged, taken
       together, do not grow where a file grows up to what is declared for it,
       nor where uploads only go.
    3. `load_step`, `load_run` — so they never exceed the dedicated space, or what
       was in use at first.
    4. `space_never_overcommitted` — the same, said of the space as it is read.
-/

namespace ResumableUpload

namespace Registry

/-- The size declared under a path text; nothing, where no upload has it. -/
def declaredAt (g : Registry) (q : String) : Nat := (g.find? q).elim 0 Record.size

/-- The path texts in use that name a file. -/
def spellings (g : Registry) (file : Location) : Finset String :=
  g.paths.toFinset.filter fun q => (Storage.resolve q).toOption = some file

/-- The files that uploads go to. -/
def files (g : Registry) : Finset Location :=
  (g.paths.filterMap fun q => (Storage.resolve q).toOption).toFinset

/-- The greatest size that uploads to a file declare. -/
def declared (g : Registry) (file : Location) : Nat := (g.spellings file).sup g.declaredAt

/-- The bytes by which the files that uploads go to are still to grow. -/
def pledged (g : Registry) (d : Disk) (base : Location) : Nat :=
  ∑ file ∈ g.files, (g.declared file - d.sizeAt (base ++ file))

/-- What is in use, and what is pledged. -/
def load (g : Registry) (d : Disk) (base : Location) : Nat := d.usedBelow base + g.pledged d base

variable {g g' : Registry} {q : String} {file : Location} {d d' : Disk} {base : Location}

theorem mem_spellings :
    q ∈ g.spellings file ↔ q ∈ g.paths ∧ Storage.resolve q = .ok file := by
  rw [spellings, Finset.mem_filter, List.mem_toFinset, Storage.toOption_resolve]

theorem mem_files : file ∈ g.files ↔ ∃ q ∈ g.paths, Storage.resolve q = .ok file := by
  simp only [files, List.mem_toFinset, List.mem_filterMap, Storage.toOption_resolve]

theorem declaredAt_of_find? {r : Record} (hr : g.find? q = some r) : g.declaredAt q = r.size := by
  rw [declaredAt, hr]
  rfl

theorem declaredAt_of_not_mem (hq : q ∉ g.paths) : g.declaredAt q = 0 := by
  have hnone : g.find? q = none :=
    Option.eq_none_iff_forall_ne_some.mpr fun r hr => hq (mem_paths.mpr ⟨r, hr⟩)
  rw [declaredAt, hnone]
  rfl

theorem le_declared (hpath : Storage.resolve q = .ok file) : g.declaredAt q ≤ g.declared file := by
  by_cases hq : q ∈ g.paths
  · exact Finset.le_sup (mem_spellings.mpr ⟨hq, hpath⟩)
  · rw [declaredAt_of_not_mem hq]
    exact Nat.zero_le _

theorem mem_files_of_declared (h : g.declared file ≠ 0) : file ∈ g.files := by
  by_contra hnot
  apply h
  apply Nat.le_zero.mp
  refine Finset.sup_le fun q hq => ?_
  obtain ⟨hmem, hpath⟩ := mem_spellings.mp hq
  exact absurd (mem_files.mpr ⟨q, hmem, hpath⟩) hnot

theorem reservedBytes_eq (g : Registry) : g.reservedBytes = ∑ q ∈ g.paths.toFinset, g.declaredAt q := by
  rw [List.sum_toFinset _ g.nodup_paths, paths, List.map_map]
  show (g.records.map Record.size).sum = _
  congr 1
  apply List.map_congr_left
  intro r hr
  exact (declaredAt_of_find? (find?_eq_some_iff.mpr ⟨hr, rfl⟩)).symm

/-- What is pledged is reserved. -/
theorem pledged_le_reserved (g : Registry) (d : Disk) (base : Location) :
    g.pledged d base ≤ g.reservedBytes := by
  -- a path text names one file, so no size is counted twice
  have hdisjoint : (g.files : Set Location).PairwiseDisjoint g.spellings := by
    intro a _ b _ hne
    rw [Function.onFun, Finset.disjoint_left]
    intro q hqa hqb
    have ha := (mem_spellings.mp hqa).2
    have hb := (mem_spellings.mp hqb).2
    exact hne (Except.ok.inj (ha.symm.trans hb))
  have hsub : g.files.biUnion g.spellings ⊆ g.paths.toFinset := by
    intro q hq
    obtain ⟨file, -, hq⟩ := Finset.mem_biUnion.mp hq
    exact List.mem_toFinset.mpr (mem_spellings.mp hq).1
  calc g.pledged d base
      ≤ ∑ file ∈ g.files, ∑ q ∈ g.spellings file, g.declaredAt q := by
        apply Finset.sum_le_sum
        intro file _
        refine Nat.le_trans (Nat.sub_le _ _) (Finset.sup_le fun q hq => ?_)
        exact Finset.single_le_sum (fun _ _ => Nat.zero_le _) hq
    _ = ∑ q ∈ g.files.biUnion g.spellings, g.declaredAt q := (Finset.sum_biUnion hdisjoint).symm
    _ ≤ ∑ q ∈ g.paths.toFinset, g.declaredAt q := Finset.sum_le_sum_of_subset hsub
    _ = g.reservedBytes := g.reservedBytes_eq.symm

/-- Where no path text declares more than it did, no more is pledged. -/
theorem pledged_mono (h : ∀ q, g'.declaredAt q ≤ g.declaredAt q) (d : Disk) (base : Location) :
    g'.pledged d base ≤ g.pledged d base := by
  have hdeclared : ∀ file, g'.declared file ≤ g.declared file := by
    intro file
    refine Finset.sup_le fun q hq => ?_
    exact Nat.le_trans (h q) (le_declared (mem_spellings.mp hq).2)
  calc g'.pledged d base
      ≤ ∑ file ∈ g'.files, (g.declared file - d.sizeAt (base ++ file)) :=
        Finset.sum_le_sum fun file _ => Nat.sub_le_sub_right (hdeclared file) _
    _ ≤ g.pledged d base := by
        apply Finset.sum_le_sum_of_ne_zero
        intro file _ hsome
        exact mem_files_of_declared fun hzero => hsome (by rw [hzero, Nat.zero_sub])

/-- A file that grows up to what is declared for it takes what was pledged. -/
theorem load_touches {s : Storage} (h : s.Touches base file d d')
    (hwithin : d'.sizeAt (base ++ file) ≤ max (d.sizeAt (base ++ file)) (g.declared file)) :
    g.load d' base ≤ g.load d base := by
  have hused := h.used
  by_cases hfile : file ∈ g.files
  · -- the other files stay as they are, so only the term of this one moves
    have hrest : ∑ f ∈ g.files.erase file, (g.declared f - d'.sizeAt (base ++ f)) =
        ∑ f ∈ g.files.erase file, (g.declared f - d.sizeAt (base ++ f)) := by
      apply Finset.sum_congr rfl
      intro f hf
      rw [h.others f (Finset.ne_of_mem_erase hf)]
    have hafter := Finset.add_sum_erase g.files
      (fun f => g.declared f - d'.sizeAt (base ++ f)) hfile
    have hbefore := Finset.add_sum_erase g.files
      (fun f => g.declared f - d.sizeAt (base ++ f)) hfile
    rw [load, load, pledged, pledged, ← hafter, ← hbefore, hrest]
    omega
  · have hzero : g.declared file = 0 := by
      by_contra hsome
      exact hfile (mem_files_of_declared hsome)
    have hsame : g.pledged d' base = g.pledged d base := by
      apply Finset.sum_congr rfl
      intro f hf
      rw [h.others f (ne_of_mem_of_not_mem hf hfile)]
    rw [load, load, hsame]
    omega

theorem declaredAt_register {path clientPath : String} {size : Nat} {owner : Int} {t : Ticket}
    (h : g.register path size owner clientPath = .ok (g', t)) (q : String) :
    g'.declaredAt q = if q = path then size else g.declaredAt q := by
  rw [declaredAt, find?_register h]
  split <;> rfl

theorem reservedBytes_register {path clientPath : String} {size : Nat} {owner : Int} {t : Ticket}
    (h : g.register path size owner clientPath = .ok (g', t)) :
    g'.reservedBytes = g.reservedBytes + size := total_register Record.size h

end Registry

namespace Course

/-- Calls come one after another, and register uploads only where they fit the space that is dedicated
to the storage. -/
structure Within (storage : Storage) (space : Nat) (c : Course) (m : Move) : Prop
    extends Orderly c m where
  admitted : ∀ path size owner clientPath, m ≠ .init path size owner clientPath
  measured : ∀ quota path size owner clientPath, m = .initWithin quota path size owner clientPath →
    quota = .ofStorage storage space

variable {c : Course} {m : Move} {storage : Storage} {space bound : Nat} {base : Location}

theorem Within.of_pump {n : Nat} (hm : m.pump? = some n) : c.Within storage space m where
  toOrderly := .of_pump hm
  admitted := by
    rintro path size owner clientPath rfl
    cases hm
  measured := by
    rintro quota path size owner clientPath rfl
    cases hm

theorem Within.fits (h : c.Within storage space m) {t : Ticket} (ht : c.registers m = some t) :
    ∃ used, storage.usedBytes c.engine.disk = .ok used ∧
      t.size ≤ space - (used + c.engine.registry.reservedBytes) := by
  cases m with
  | init path size owner clientPath => exact absurd rfl (h.admitted path size owner clientPath)
  | initWithin quota path size owner clientPath =>
    obtain ⟨e, he⟩ := eq_ok_of_ticket ht
    obtain ⟨-, used, hused, hfits⟩ := Engine.initWithin_checked he
    obtain ⟨registry, notice, hreg, -⟩ := Engine.initWithin_eq_ok he
    obtain ⟨-, -, rfl⟩ := Registry.register_eq_ok hreg
    obtain rfl := h.measured quota path size owner clientPath rfl
    exact ⟨used, hused, hfits⟩
  | _ => cases ht

/-- What is in use below the base, and what is pledged to uploads. -/
def load (base : Location) (c : Course) : Nat := c.engine.registry.load c.engine.disk base

theorem declaredAt_step (hsound : c.Sound) (hfigured : c.Figured) (hnone : c.registers m = none)
    (q : String) : (c.step m).engine.registry.declaredAt q ≤ c.engine.registry.declaredAt q := by
  cases hq : (c.step m).engine.registry.find? q with
  | none =>
    rw [Registry.declaredAt, hq]
    exact Nat.zero_le _
  | some s =>
    rcases record_of_step hsound hfigured hq with ⟨r, hr, honward⟩ | hregisters
    · rw [Registry.declaredAt_of_find? hq, Registry.declaredAt_of_find? hr, honward.size]
    · rw [hnone] at hregisters
      cases hregisters

theorem load_works (hworks : Tended.Works base c m) :
    c.engine.registry.load (c.step m).engine.disk base ≤ c.load base := by
  cases hworks with
  | idle hdisk =>
    rw [hdisk]
    exact Nat.le_refl _
  | fills hwrites hfills =>
    apply Registry.load_touches hfills.toTouches
    obtain ⟨hr, hpath, hstop⟩ := hwrites
    have hdeclared := Registry.le_declared (g := c.engine.registry) hpath
    rw [Registry.declaredAt_of_find? hr] at hdeclared
    have hgrown := hfills.within
    omega
  | deletes _ _ _ htouches hshrinks =>
    exact Registry.load_touches htouches (Nat.le_trans hshrinks (Nat.le_max_left _ _))

/-- What is registered fits the dedicated space, or declares nothing. -/
theorem load_registers (hrooted : c.engine.storage.Rooted c.engine.disk base)
    (hm : c.Within c.engine.storage space m) {t : Ticket} (ht : c.registers m = some t) :
    (c.step m).load base ≤ max (c.load base) space := by
  obtain ⟨-, -, registry, notice, clientPath, hreg, hstep⟩ := registers_eq_some ht
  have hregistry : (c.step m).engine.registry = registry := by
    rw [hstep]
    exact Engine.registry_announceIfEmpty _ t
  have hdisk : (c.step m).engine.disk = c.engine.disk := by
    rw [hstep]
    exact Engine.disk_announceIfEmpty _ t
  rw [load, hregistry, hdisk]
  obtain ⟨used, hused, hfits⟩ := hm.fits ht
  obtain ⟨rfl, -⟩ := hrooted.usedBytes_eq_ok.mp hused
  by_cases hsize : t.size = 0
  · -- nothing always fits, even where more is in use than is dedicated
    refine Nat.le_trans ?_ (Nat.le_max_left _ _)
    apply Nat.add_le_add_left
    apply Registry.pledged_mono
    intro q
    rw [Registry.declaredAt_register hreg, hsize]
    split
    · exact Nat.zero_le _
    · exact Nat.le_refl _
  · refine Nat.le_trans ?_ (Nat.le_max_right _ _)
    have hpledged := registry.pledged_le_reserved c.engine.disk base
    rw [Registry.reservedBytes_register hreg] at hpledged
    rw [Registry.load]
    omega

theorem load_step (h : c.InOrder base) (hm : c.Within c.engine.storage space m) :
    (c.step m).load base ≤ max (c.load base) space := by
  cases ht : c.registers m with
  | some t => exact load_registers h.tended.rooted hm ht
  | none =>
    refine Nat.le_trans ?_ (Nat.le_max_left _ _)
    refine Nat.le_trans ?_ (load_works (h.works hm.toOrderly))
    apply Nat.add_le_add_left
    exact Registry.pledged_mono (declaredAt_step h.sound h.figured ht) _ base

/-- What is in use and what is pledged stay within the dedicated space, or what was in use at first. -/
theorem load_run {e : Engine} (hempty : e.registry = .empty)
    (hrooted : e.storage.Rooted e.disk base) {moves : List Move}
    (h : (new e).Obeys (Within e.storage space) moves) :
    ((new e).run moves).load base ≤ max (e.disk.usedBelow base) space := by
  induction moves using List.reverseRecOn with
  | nil =>
    have hnothing : ((new e).run []).load base = e.disk.usedBelow base := by
      show e.registry.load e.disk base = _
      rw [hempty]
      rfl
    rw [hnothing]
    exact Nat.le_max_left _ _
  | append_singleton moves m ih =>
    obtain ⟨hbefore, hm, -⟩ := obeys_append.mp h
    have horderly : (new e).Obeys Orderly moves := hbefore.imp fun _ _ hm => hm.toOrderly
    have hstorage : ((new e).run moves).engine.storage = e.storage :=
      (later_run (new e) moves).engine.storage
    rw [← hstorage] at hm
    rw [run_concat]
    have hstep := load_step (inOrder_run hempty hrooted horderly) hm
    have hload := ih hbefore
    omega

theorem readable_run {e : Engine} (hempty : e.registry = .empty)
    (hrooted : e.storage.Rooted e.disk base) {moves : List Move} (h : (new e).Obeys Orderly moves)
    (hlisted : ∀ ns ∈ e.disk.directoriesBelow base,
      (e.storage.filePath ns).bytes ≤ OsPath.maxBytes) :
    ∀ ns ∈ ((new e).run moves).engine.disk.directoriesBelow base,
      (e.storage.filePath ns).bytes ≤ OsPath.maxBytes := by
  induction moves using List.reverseRecOn with
  | nil => exact hlisted
  | append_singleton moves m ih =>
    obtain ⟨hfirst, hm, -⟩ := obeys_append.mp h
    have hbefore := ih hfirst
    have hstorage : ((new e).run moves).engine.storage = e.storage :=
      (later_run (new e) moves).engine.storage
    have hworks := (inOrder_run hempty hrooted hfirst).works hm
    rw [run_concat]
    rw [← hstorage] at hbefore ⊢
    cases hworks with
    | idle hdisk =>
      rw [hdisk]
      exact hbefore
    | fills _ hfills => exact hfills.toTouches.readable hbefore
    | deletes _ _ _ htouches _ => exact htouches.readable hbefore

end Course

/-- The dedicated space is never overcommitted. Whatever is below the base of the storage at first,
where no link lies there, and whatever calls follow, one after another, that register uploads against
the dedicated space of this storage only: in every state the bytes in use, with those that uploads may
still add, are no more than the dedicated space, or than what was in use at first. The space in use is
read as that, and goes on to be readable. -/
theorem space_never_overcommitted (disk : Disk) (storage : Storage) (writers maxSize capacity : Nat)
    (base : Location) (hrooted : storage.Rooted disk base) (space : Nat) (moves : List Move)
    (hmoves : (Course.new (.new disk storage writers maxSize capacity)).Obeys
      (Course.Within storage space) moves) :
    let c := (Course.new (.new disk storage writers maxSize capacity)).run moves
    let bound := max (disk.usedBelow base) space
    c.engine.disk.usedBelow base + c.engine.registry.pledged c.engine.disk base ≤ bound ∧
    (∀ used, storage.usedBytes c.engine.disk = .ok used → used ≤ bound) ∧
    (∀ first, storage.usedBytes disk = .ok first → first = disk.usedBelow base ∧
      ∃ used, storage.usedBytes c.engine.disk = .ok used) := by
  intro c bound
  have hload : c.load base ≤ bound :=
    Course.load_run (e := .new disk storage writers maxSize capacity) rfl hrooted hmoves
  have horderly : (Course.new (.new disk storage writers maxSize capacity)).Obeys Course.Orderly
      moves := hmoves.imp fun _ _ hm => hm.toOrderly
  have hstorage : c.engine.storage = storage := (Course.later_run (.new _) moves).engine.storage
  have hrootedNow : storage.Rooted c.engine.disk base := by
    rw [← hstorage]
    exact (Course.inOrder_run (e := .new disk storage writers maxSize capacity) rfl hrooted
      horderly).tended.rooted
  refine ⟨hload, ?_, ?_⟩
  · intro used hused
    obtain ⟨rfl, -⟩ := hrootedNow.usedBytes_eq_ok.mp hused
    exact Nat.le_trans (Nat.le_add_right _ _) hload
  · intro first hfirst
    obtain ⟨hused, hlisted⟩ := hrooted.usedBytes_eq_ok.mp hfirst
    have hreadable := Course.readable_run (e := .new disk storage writers maxSize capacity) rfl
      hrooted horderly hlisted
    exact ⟨hused.symm, _, hrootedNow.usedBytes_eq_ok.mpr ⟨rfl, hreadable⟩⟩

/-- An upload of four bytes, where eight are dedicated. The write fails when three of them are in the
file. -/
def threeOfFour : List Move :=
  [.initWithin (.ofStorage ⟨"up"⟩ 8) "a" 4 0 "", .submit "a" ⟨0, #[1, 2, 3, 4]⟩, .turn 0, .turn 0,
    .turn 0, .fault 0 ⟨.other "No space left on device (os error 28)", 3⟩]

theorem threeOfFour_within :
    (Course.new (.new emptyBase ⟨"up"⟩ 1 100 16)).Obeys (Course.Within ⟨"up"⟩ 8) threeOfFour := by
  refine ⟨⟨⟨nofun, nofun, fun _ => rfl⟩, nofun, ?_⟩,
    ⟨⟨nofun, nofun, fun _ => rfl⟩, nofun, nofun⟩, .of_pump rfl, .of_pump rfl, .of_pump rfl,
    .of_pump rfl, trivial⟩
  intro quota path size owner clientPath h
  cases h
  rfl

/-- The three bytes are in use, and no more than eight with those that may still come. -/
theorem three_bytes_are_in_use :
    let c := (Course.new (.new emptyBase ⟨"up"⟩ 1 100 16)).run threeOfFour
    (Storage.mk "up").usedBytes c.engine.disk = .ok 3 ∧
      c.engine.disk.usedBelow ["up"] + c.engine.registry.pledged c.engine.disk ["up"] ≤ 8 := by
  intro c
  obtain ⟨hload, -, -⟩ := space_never_overcommitted emptyBase ⟨"up"⟩ 1 100 16 ["up"]
    emptyBase_rooted 8 threeOfFour threeOfFour_within
  exact ⟨by rfl, hload⟩

end ResumableUpload
