import ResumableUpload.Proofs.Course.Destinations
import ResumableUpload.Proofs.Course.Orderly
import ResumableUpload.Proofs.Fragment.Covered
import ResumableUpload.Proofs.Fragment.Tiling

/-
  Length — how long the file of a finished upload is

  A file is opened with what it holds, and a removal of an upload leaves its
  file. So an upload finds the file as long as earlier ones left it, and a
  fragment, which lies within the declared size, never shortens it: a finished
  file is as long as declared, or as long as it was found, whichever is more.

  What is held:
    1. `Course.Sole` — an upload that its file is left to, and how long the file
       is meanwhile.

  What is proved:
    1. `written_of_step` — what a move adds to the fragments written.
    2. `sole_registers`, `Sole.step` — a registration leaves the file to its
       upload, and calls one after another keep that.
    3. `finished_length_of_run` — the same, said of an upload that is complete.
    4. `finished_file_longer_than_declared` — the length need not be the one
       declared.
-/

namespace ResumableUpload

namespace Course

variable {c : Course} {m : Move} {id : UploadId} {base file : Location} {path : String}
  {first : Nat}

/-- A fragment that is written with a move is delivered to the end by a pump under way. -/
theorem written_of_step {s : Settlement} (hs : s ∈ ((c.step m).history.of id).ended .written) :
    s ∈ (c.history.of id).ended .written ∨
      ∃ n u w, m = .turn n ∧ u ∈ c.live ∧
        c.operate u = ((c.step m).engine.disk, .ended (.ok w)) ∧ u.flight.fragment = s.fragment ∧
        ∃ r, c.engine.registry.find? u.flight.pump.path = some r ∧ r.id = id := by
  obtain ⟨hmem, hverdict⟩ := Log.mem_ended.mp hs
  rw [History.mem_of, history_step] at hmem
  rcases List.mem_append.mp hmem with hold | hnew
  · exact .inl (Log.mem_ended.mpr ⟨History.mem_of.mpr hold, hverdict⟩)
  · right
    obtain ⟨u, w, hdelivers, -, hfragment, r, hr⟩ := delivers_of_mem_notes hnew hverdict
    cases m with
    | turn n =>
      obtain ⟨v, hv, hturn⟩ := Option.bind_eq_some_iff.mp hdelivers
      have hdisk : (c.step (.turn n)).engine.disk = (c.operate v).1 := by
        simp only [step, hv, Option.elim_some]
        exact disk_turn c v
      unfold deliversTurn at hturn
      split at hturn
      · cases hturn
      · rename_i disk result hoperate
        cases hturn
        have hoperate : c.operate u = (disk, .ended (.ok w)) := hoperate
        refine ⟨n, u, w, rfl, List.mem_of_find?_eq_some hv, ?_, hfragment, r,
          Registry.owned?_eq_some_iff.mp hr⟩
        rw [hdisk, hoperate]
    | fault n fault =>
      obtain ⟨v, -, heq⟩ := Option.map_eq_some_iff.mp hdelivers
      cases heq
    | _ => cases hdelivers

/-- No upload but one goes to the file, and while it does the file is as long as it was at `first`, or
as the fragments written need it. -/
structure Sole (base file : Location) (path : String) (id : UploadId) (first : Nat) (c : Course) :
    Prop where
  id_lt : id < c.engine.registry.nextId
  spelled : ∀ q ∈ c.pathsTo file, q = path
  length : ∀ r, c.engine.registry.find? path = some r → r.id = id →
    first ≤ c.engine.disk.sizeAt (base ++ file) ∧
      c.engine.disk.sizeAt (base ++ file) ≤ max first r.size
  reached : ∀ r, c.engine.registry.find? path = some r → r.id = id →
    ∀ s ∈ (c.history.of id).ended .written, s.fragment.len ≠ 0 →
      c.engine.storage.Clear c.engine.disk base file ∧
        s.fragment.stop ≤ c.engine.disk.sizeAt (base ++ file)

/-- A move leaves a file to the upload at a path text: no other spelling of the file is registered
after the move, and none is discarded by it. -/
structure Spares (file : Location) (path : String) (c : Course) (m : Move) : Prop where
  spelled : ∀ q ∈ (c.step m).pathsTo file, q = path
  discarded : ∀ q, m = .discard q → Storage.resolve q = .ok file → q = path

theorem nextId_step (c : Course) (m : Move) :
    c.engine.registry.nextId ≤ (c.step m).engine.registry.nextId :=
  keep_run (P := fun v => c.engine.registry.nextId ≤ v.registry.nextId)
    (fun _ _ hc h => Nat.le_trans h (nextId_change hc)) (Nat.le_refl _) [m]

/-- A registration leaves the file to its upload, where no other upload goes to it. -/
theorem sole_registers (hsound : c.Sound) {t : Ticket} (h : c.registers m = some t)
    (hspares : c.Spares file t.path m) :
    (c.step m).Sole base file t.path t.id (c.engine.disk.sizeAt (base ++ file)) := by
  obtain ⟨-, -, registry, notice, clientPath, hreg, hstep⟩ := registers_eq_some h
  have hregistry : (c.step m).engine.registry = registry := by
    rw [hstep]
    exact Engine.registry_announceIfEmpty _ t
  have hdisk : (c.step m).engine.disk = c.engine.disk := by
    rw [hstep]
    exact Engine.disk_announceIfEmpty _ t
  refine ⟨?_, hspares.spelled, ?_, ?_⟩
  · obtain ⟨-, hnext, -⟩ := Registry.register_eq_ok hreg
    rw [hregistry, hnext, id_of_registers h]
    exact Nat.lt_succ_self _
  · intro r _ _
    rw [hdisk]
    exact ⟨Nat.le_refl _, Nat.le_max_left _ _⟩
  · intro r _ _ s hs
    -- a new upload has nothing written
    obtain ⟨hmem, -⟩ := Log.mem_ended.mp hs
    rw [log_of_registers hsound.identity h] at hmem
    split at hmem <;> simp at hmem

namespace Sole

/-- The file does not shrink, and grows up to the size of its upload at most. -/
theorem length_works (h : c.Sole base file path id first) (hworks : Tended.Works base c m)
    (hspares : c.Spares file path m) (hkept : m ≠ .discard path) {r : Record}
    (hr : c.engine.registry.find? path = some r) :
    c.engine.disk.sizeAt (base ++ file) ≤ (c.step m).engine.disk.sizeAt (base ++ file) ∧
      (c.step m).engine.disk.sizeAt (base ++ file) ≤
        max (c.engine.disk.sizeAt (base ++ file)) r.size := by
  have hsame : ∀ {names}, names ≠ file →
      c.engine.storage.Touches base names c.engine.disk (c.step m).engine.disk →
      (c.step m).engine.disk.sizeAt (base ++ file) = c.engine.disk.sizeAt (base ++ file) :=
    fun hne htouches => htouches.others file (Ne.symm hne)
  cases hworks with
  | idle hdisk =>
    rw [hdisk]
    exact ⟨Nat.le_refl _, Nat.le_max_left _ _⟩
  | @fills u s names hwrites hfills =>
    by_cases hne : names = file
    · subst hne
      obtain ⟨hs, hpath, hstop⟩ := hwrites
      have hspelled := h.spelled _ (mem_pathsTo.mpr ⟨⟨s, hs⟩, hpath⟩)
      rw [hspelled] at hs
      obtain rfl : s = r := Option.some.inj (hs.symm.trans hr)
      have hwithin := hfills.within
      exact ⟨hfills.grows, by omega⟩
    · rw [hsame hne hfills.toTouches]
      exact ⟨Nat.le_refl _, Nat.le_max_left _ _⟩
  | @deletes q names hm _ hpath htouches _ =>
    have hne : names ≠ file := by
      rintro rfl
      exact hkept (by rw [hm, hspares.discarded q hm hpath])
    rw [hsame hne htouches]
    exact ⟨Nat.le_refl _, Nat.le_max_left _ _⟩

theorem there (h : c.Sole base file path id first) (hsound : c.Sound) (hfigured : c.Figured)
    {s : Record} (hs : (c.step m).engine.registry.find? path = some s) (hid : s.id = id) :
    ∃ r, c.engine.registry.find? path = some r ∧ r.Onward s := by
  refine (record_of_step hsound hfigured hs).resolve_right fun hregisters => ?_
  have hnew : s.id = c.engine.registry.nextId := id_of_registers hregisters
  exact absurd (hnew.symm.trans hid) (Nat.ne_of_gt h.id_lt)

theorem not_discard (h : c.Sole base file path id first) (hsound : c.Sound) (hfigured : c.Figured)
    {s : Record} (hs : (c.step m).engine.registry.find? path = some s) (hid : s.id = id) :
    m ≠ .discard path := by
  rintro rfl
  obtain ⟨r, hr, -⟩ := h.there hsound hfigured hs hid
  rw [(step_removed (.inr rfl) hr).1, Registry.find?_remove, if_pos rfl] at hs
  cases hs

theorem step (h : c.Sole base file path id first) (horder : c.InOrder base) (hm : Orderly c m)
    (hfile : Storage.resolve path = .ok file) (hspares : c.Spares file path m) :
    (c.step m).Sole base file path id first := by
  have hstorage : (c.step m).engine.storage = c.engine.storage := (later_step c m).engine.storage
  have hworks := horder.works hm
  refine ⟨Nat.lt_of_lt_of_le h.id_lt (nextId_step c m), hspares.spelled, ?_, ?_⟩
  · intro s hs hid
    obtain ⟨r, hr, honward⟩ := h.there horder.sound horder.figured hs hid
    obtain ⟨hatLeast, hatMost⟩ := h.length r hr (honward.id.symm.trans hid)
    obtain ⟨hgrows, hwithin⟩ :=
      h.length_works hworks hspares (h.not_discard horder.sound horder.figured hs hid) hr
    rw [honward.size]
    omega
  · intro s hs hid x hx hsome
    obtain ⟨r, hr, honward⟩ := h.there horder.sound horder.figured hs hid
    have hrid : r.id = id := honward.id.symm.trans hid
    rw [hstorage]
    rcases written_of_step hx with hold | ⟨n, u, w, rfl, hu, hoperate, hfragment, o, ho, hoid⟩
    · obtain ⟨hclear, hreached⟩ := h.reached r hr hrid x hold hsome
      obtain ⟨hgrows, -⟩ :=
        h.length_works hworks hspares (h.not_discard horder.sound horder.figured hs hid) hr
      exact ⟨hclear.steady hworks.steady, Nat.le_trans hreached hgrows⟩
    · -- the pump serves this upload, so the file it wrote is the one of its path
      have hpath : u.flight.pump.path = path :=
        horder.sound.identity.id_inj _ _ o r ho hr (hoid.trans hrid.symm)
      have hadvanced := horder.tended.operate hu (hpath ▸ hfile)
      rw [hoperate] at hadvanced
      obtain ⟨hopen, hreach⟩ := hadvanced.ended w rfl
      rw [hfragment] at hreach
      exact ⟨hopen.clear, hreach hsome⟩

end Sole

theorem sole_run {e : Engine} (hempty : e.registry = .empty)
    (hrooted : e.storage.Rooted e.disk base) {before later : List Move} {t : Ticket}
    (horderly : (new e).Obeys Orderly (before ++ m :: later))
    (hregisters : ((new e).run before).registers m = some t)
    (hfile : Storage.resolve t.path = .ok file)
    (hspares : ((new e).run before).Obeys (Spares file t.path) (m :: later)) :
    ((new e).run (before ++ m :: later)).Sole base file t.path t.id
      (((new e).run before).engine.disk.sizeAt (base ++ file)) := by
  induction later using List.reverseRecOn with
  | nil =>
    rw [run_concat]
    exact sole_registers (sound_run e hempty before) hregisters hspares.1
  | append_singleton later x ih =>
    have hmoves : before ++ m :: (later ++ [x]) = (before ++ m :: later) ++ [x] := by simp
    have hrun : ((new e).run before).run (m :: later) = (new e).run (before ++ m :: later) := by
      rw [run, run, run, List.foldl_append]
    rw [hmoves] at horderly ⊢
    obtain ⟨hbefore, hm, -⟩ := obeys_append.mp horderly
    have hsplit : ((new e).run before).Obeys (Spares file t.path) ((m :: later) ++ [x]) := hspares
    obtain ⟨hspared, hx, -⟩ := obeys_append.mp hsplit
    rw [hrun] at hx
    rw [run_concat]
    exact (ih hbefore hspared).step (inOrder_run hempty hrooted hbefore) hm hfile hx

theorem tiling_of_completed {log : Log} {held : List Fragment} {r : Record} (hfigures : Figures held r)
    (hledger : Ledger log held r) (hcompleted : r.completed = true)
    (hapart : r.coverage.ranges.Pairwise ByteRange.Apart) :
    Tiling r.size ((log.ended .written).map Settlement.fragment) := by
  have hranges : r.coverage.ranges =
      ((log.ended .written).map Settlement.fragment).map Fragment.range := by
    rw [hledger.coverage, List.map_map]
    rfl
  have hsaved : r.saved = totalLen ((log.ended .written).map Settlement.fragment) := by
    rw [hledger.saved, totalLen, List.map_map]
    rfl
  apply Tiling.of_le_totalLen
  · rw [hranges, List.pairwise_map] at hapart
    exact hapart
  · intro f hf
    apply (hfigures.ranges f.range _).2
    rw [hranges]
    exact List.mem_map_of_mem hf
  · rw [← hsaved]
    exact hfigures.completed.mp hcompleted

end Course

/-- A finished file is as long as declared, or as long as it was found, whichever is more. Whatever was
there and went on before, in calls one after another: if from the registration of an upload on no other
spelling of its path is registered, or discarded, then the file of the upload, once it is complete by
written ranges that share no offset, has the declared length, or the length that it had when the upload
was registered, if that was greater. -/
theorem finished_length_of_run (disk : Disk) (storage : Storage) (writers maxSize capacity : Nat)
    (base : Location) (hrooted : storage.Rooted disk base) (before later : List Move) (m : Move)
    (hmoves : (Course.new (.new disk storage writers maxSize capacity)).Obeys Course.Orderly
      (before ++ m :: later)) :
    let start := Course.new (.new disk storage writers maxSize capacity)
    let found := start.run before
    let c := start.run (before ++ m :: later)
    ∀ t file, found.registers m = some t → Storage.resolve t.path = .ok file →
      found.Obeys (Course.Spares file t.path) (m :: later) →
      ∀ r, c.engine.registry.find? t.path = some r → r.id = t.id → 0 < r.size →
        r.completed = true → r.coverage.ranges.Pairwise ByteRange.Apart →
        storage.fileSize c.engine.disk t.path =
          .ok (max r.size (found.engine.disk.sizeAt (base ++ file))) := by
  intro start found c t file hregisters hfile hspares r hr hid hsize hcompleted hapart
  have hsole := Course.sole_run (e := start.engine) rfl hrooted hmoves hregisters hfile hspares
  have hstorage : c.engine.storage = storage := (Course.later_run start _).engine.storage
  have hrootedNow : storage.Rooted c.engine.disk base := by
    rw [← hstorage]
    exact (Course.inOrder_run (e := start.engine) rfl hrooted hmoves).tended.rooted
  have htiling := Course.tiling_of_completed (Course.figured_run start.engine rfl _ _ r hr)
    (ledgers_run start.engine rfl _ _ r hr) hcompleted hapart
  -- the fragment with the last byte was written, so the file reaches its end
  obtain ⟨f, hf, hsome, hstop⟩ := htiling.exists_stop hsize
  obtain ⟨s, hs, rfl⟩ := List.mem_map.mp hf
  rw [hid] at hs
  obtain ⟨hclear, hreached⟩ := hsole.reached r hr hid s hs hsome
  obtain ⟨hatLeast, hatMost⟩ := hsole.length r hr hid
  have hclear : storage.Clear c.engine.disk base file := hstorage ▸ hclear
  have hlong : r.size ≤ c.engine.disk.sizeAt (base ++ file) := Nat.le_trans hstop hreached
  have hlength : c.engine.disk.sizeAt (base ++ file) =
      max r.size (found.engine.disk.sizeAt (base ++ file)) := by
    apply Nat.le_antisymm
    · rw [Nat.max_comm]
      exact hatMost
    · exact Nat.max_le.mpr ⟨hlong, hatLeast⟩
  rw [← hlength]
  exact hrootedNow.fileSize_eq hfile hclear (by omega)

/-- An upload of eight bytes that is complete, and removed. -/
def eightWritten : List Move :=
  [.init "a" 8 0 "", .submit "a" ⟨0, #[1, 2, 3, 4, 5, 6, 7, 8]⟩, .turn 0, .turn 0, .turn 0, .turn 0,
    .remove "a"]

/-- Four bytes for another upload, which are written. -/
def fourWritten : List Move :=
  [.submit "a" ⟨0, #[9, 10, 11, 12]⟩, .turn 1, .turn 1, .turn 1, .turn 1]

/-- An upload of four bytes, to the path of one of eight that is removed. -/
def eightThenFour : Course :=
  (Course.new (.new emptyBase ⟨"up"⟩ 1 100 16)).run (eightWritten ++ .init "a" 4 0 "" :: fourWritten)

theorem eightThenFour_orderly : (Course.new (.new emptyBase ⟨"up"⟩ 1 100 16)).Obeys Course.Orderly
    (eightWritten ++ .init "a" 4 0 "" :: fourWritten) :=
  ⟨⟨nofun, nofun, fun _ => rfl⟩, ⟨nofun, nofun, fun _ => rfl⟩, .of_pump rfl, .of_pump rfl,
    .of_pump rfl, .of_pump rfl, ⟨nofun, nofun, fun _ => rfl⟩, ⟨nofun, nofun, fun _ => rfl⟩,
    ⟨nofun, nofun, fun _ => rfl⟩, .of_pump rfl, .of_pump rfl, .of_pump rfl, .of_pump rfl, trivial⟩

theorem eightThenFour_there : (eightThenFour.engine.registry.find? "a").isSome = true := by decide

theorem eightThenFour_apart : ((eightThenFour.engine.registry.find? "a").get
    eightThenFour_there).coverage.ranges.Pairwise ByteRange.Apart := by
  have hranges : ((eightThenFour.engine.registry.find? "a").get
      eightThenFour_there).coverage.ranges = [⟨0, 4⟩] := by decide
  rw [hranges]
  exact List.pairwise_singleton _ _

/-- The file of the complete upload of four bytes is as long as it was found. -/
theorem four_bytes_over_eight :
    let found := (Course.new (.new emptyBase ⟨"up"⟩ 1 100 16)).run eightWritten
    let r := (eightThenFour.engine.registry.find? "a").get eightThenFour_there
    r.size = 4 ∧ r.completed = true ∧ found.engine.disk.sizeAt ["up", "a"] = 8 ∧
      (Storage.mk "up").fileSize eightThenFour.engine.disk "a" =
        .ok (max r.size (found.engine.disk.sizeAt ["up", "a"])) := by
  intro found r
  have hr : eightThenFour.engine.registry.find? "a" = some r :=
    (Option.some_get eightThenFour_there).symm
  have hspares : found.Obeys (Course.Spares ["a"] "a") (.init "a" 4 0 "" :: fourWritten) :=
    ⟨⟨by decide, nofun⟩, ⟨by decide, nofun⟩, ⟨by decide, nofun⟩, ⟨by decide, nofun⟩,
      ⟨by decide, nofun⟩, ⟨by decide, nofun⟩, trivial⟩
  exact ⟨by decide, by decide, by decide, finished_length_of_run emptyBase ⟨"up"⟩ 1 100 16 ["up"]
    emptyBase_rooted eightWritten fourWritten (.init "a" 4 0 "") eightThenFour_orderly ⟨1, "a", 4, 0⟩
    ["a"] (by decide) (by rfl) hspares r hr (by decide) (by decide) (by decide) eightThenFour_apart⟩

/-- A finished file need not have the declared length. -/
theorem finished_file_longer_than_declared :
    ¬ ∀ (disk : Disk) (storage : Storage) (writers maxSize capacity : Nat) (base : Location),
      storage.Rooted disk base → (∀ names, names ≠ [] → disk.get? (base ++ names) = none) →
      ∀ moves, (Course.new (.new disk storage writers maxSize capacity)).Obeys Course.Orderly moves →
      let c := (Course.new (.new disk storage writers maxSize capacity)).run moves
      ∀ q r, c.engine.registry.find? q = some r → 0 < r.size → r.completed = true →
        r.coverage.ranges.Pairwise ByteRange.Apart →
        storage.fileSize c.engine.disk q = .ok r.size := by
  intro h
  have hlength := h emptyBase ⟨"up"⟩ 1 100 16 ["up"] emptyBase_rooted (fun _ => emptyBase_free)
    (eightWritten ++ .init "a" 4 0 "" :: fourWritten) eightThenFour_orderly "a" _
    (Option.some_get eightThenFour_there).symm (by decide) (by decide) eightThenFour_apart
  have hshort : ((Storage.mk "up").fileSize eightThenFour.engine.disk "a").toOption =
      some ((eightThenFour.engine.registry.find? "a").get eightThenFour_there).size :=
    congrArg Except.toOption hlength
  revert hshort
  decide

end ResumableUpload
