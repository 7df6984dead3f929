import ResumableUpload.Proofs.Course.Destinations
import ResumableUpload.Proofs.Course.Orderly
import ResumableUpload.Proofs.Disk.Trail

/-
  Recreated — how a discarded file comes back

  To discard an upload is to forget it and to delete its file, at once. A pump
  may be under way for it meanwhile. If it has the file open, what it still
  writes goes to the file that was deleted, and nobody sees it. If it has the
  file still to open, it opens it afterwards, and an open makes a file that is
  missing: the file is there again, and stays. The pump looks whether its upload
  is still there only when the fragment is written. To drop the pump is no remedy:
  where it has asked for the file to be opened, the disk goes on and opens it.

  What is held:
    1. `Course.HasFile` — a file lies at a location below the base.
    2. `Course.owed` — the pumps that the disk owes an operation, be they under
       way or dropped; `Unopened` — such a pump has a file still to open.
    3. `Course.Opens`, `Course.Deletes` — a move makes a file, or deletes it;
       `Makes` — a move of a run makes a file, and nothing deletes it since.

  What is proved:
    1. `grounded_step`, `grounded_run` — moves leave a tree below the base.
    2. `hasFile_step` — a file is there after a move that opened it, and where it
       was there and is not deleted.
    3. `unopened_of_step`, `unopened_of_run` — a file that no upload goes to gets
       no pump that has it still to open.
    4. `hasFile_run_iff` — a file is there if it was there or was opened, and was
       not deleted since.
    5. `discarded_file_comes_back_iff` — so the file of a discarded upload comes
       back by a pump that had it still to open, and only so.
    6. `file_of_discarded_upload_stays` — which does happen.
-/

namespace ResumableUpload

theorem Delivery.writer?_of_onward {s : Storage} {path : String} {f : Fragment} {x next : Delivery}
    {d d' : Disk} (h : x.advance s path f d = (d', .onward next)) (hnext : next.writer? = none) :
    x.writer? = none := by
  cases x with
  | directories => rfl
  | opening => rfl
  | seeking w =>
    simp only [Delivery.advance] at h
    split at h
    · cases h
    · split at h <;> cases h
      cases hnext
  | writing w done =>
    simp only [Delivery.advance] at h
    split at h <;> cases h
    cases hnext

namespace Course

variable {c : Course} {m : Move} {u : Underway} {n : Nat} {base file : Location} {path : String}
  {d : Disk}

/-- A file lies at a location below the base. -/
def HasFile (c : Course) (base file : Location) : Prop :=
  (c.engine.disk.contentOf? (base ++ file)).isSome = true

/-- The pumps that the disk owes an operation: those under way, and those that were dropped. -/
def owed (c : Course) : List Underway := c.live ++ c.adrift

/-- A pump that is owed an operation has a file still to open. -/
def Unopened (c : Course) (file : Location) (n : Nat) : Prop :=
  ∃ u ∈ c.owed, u.number = n ∧ Storage.resolve u.flight.pump.path = .ok file ∧
    u.delivery.writer? = none

/-- The operation that a move carries out for a pump opens a file, which is made if it is missing. -/
def Opens (c : Course) (file : Location) (n : Nat) (m : Move) : Prop :=
  ∃ u, c.operates m = some (u, none) ∧ u.number = n ∧
    Storage.resolve u.flight.pump.path = .ok file ∧ u.delivery = .opening ∧
    ∃ w, (c.operate u).2 = .onward (.seeking w)

/-- A move deletes a file. -/
def Deletes (c : Course) (file : Location) (m : Move) : Prop :=
  ∃ q, m = .discard q ∧ Storage.resolve q = .ok file ∧ (c.engine.discard q).2 = .ok true

/-! ## The tree below the base -/

/-- Every operation of a delivery leaves a tree. -/
theorem grounded_advance {s : Storage} (h : s.Grounded d base) (path : String) (f : Fragment)
    (x : Delivery) : s.Grounded (x.advance s path f d).1 base := by
  cases x with
  | directories =>
    have hmade : s.Grounded (s.makeWay d path).1 base := by
      cases hpath : Storage.resolve path with
      | error err =>
        simp only [Storage.makeWay, hpath]
        exact h
      | ok names => exact (Storage.paves_makeWay h hpath).grounded
    unfold Delivery.advance
    cases hmake : s.makeWay d path with
    | mk d' result =>
      rw [hmake] at hmade
      cases result <;> exact hmade
  | opening =>
    have hopened : s.Grounded (s.openFile d path).1 base := by
      cases hpath : Storage.resolve path with
      | error err =>
        simp only [Storage.openFile, hpath]
        exact h
      | ok names => exact (Storage.tends_openFile h hpath).1.grounded
    unfold Delivery.advance
    cases hopen : s.openFile d path with
    | mk d' result =>
      rw [hopen] at hopened
      cases result <;> exact hopened
  | seeking w =>
    unfold Delivery.advance
    dsimp only
    split
    · exact h
    · split <;> exact h
  | writing w done =>
    have hplaced := Storage.grounded_place h w.file (f.position + done)
      (f.bytes.extract done (done + FileWriter.burst))
    unfold Delivery.advance
    dsimp only
    split <;> exact hplaced

theorem grounded_fail {s : Storage} (h : s.Grounded d base) (path : String) (f : Fragment)
    (count : Nat) (x : Delivery) : s.Grounded (x.fail s path f count d) base := by
  cases x with
  | directories =>
    cases hpath : Storage.resolve path with
    | error err =>
      simp only [Delivery.fail, Storage.makeSome, hpath]
      exact h
    | ok names => exact (Storage.paves_makeSome h hpath count).grounded
  | opening => exact h
  | seeking w => exact h
  | writing w done => exact Storage.grounded_place h w.file _ _

theorem grounded_effect (h : c.engine.storage.Grounded c.engine.disk base) (u : Underway)
    (fault : Option DiskFault) : c.engine.storage.Grounded (u.effect c.engine fault) base := by
  cases fault with
  | none => exact grounded_advance h _ _ _
  | some fault => exact grounded_fail h _ _ _ _

theorem grounded_step (h : c.engine.storage.Grounded c.engine.disk base)
    (halone : ∀ disk, m ≠ .outside disk) :
    (c.step m).engine.storage.Grounded (c.step m).engine.disk base := by
  rw [(later_step c m).engine.storage]
  obtain hsame | ⟨u, fault, -, heffect⟩ | ⟨path, -, hdelete⟩ | ⟨disk, hm⟩ := disk_step c m
  · rw [hsame]
    exact h
  · rw [heffect]
    exact grounded_effect h u fault
  · rw [hdelete]
    cases hpath : Storage.resolve path with
    | error err =>
      simp only [Storage.delete, hpath]
      exact h
    | ok names => exact (Storage.tends_delete h hpath).grounded
  · exact absurd hm (halone disk)

theorem grounded_run {moves : List Move} (h : c.engine.storage.Grounded c.engine.disk base)
    (halone : ∀ m ∈ moves, ∀ disk, m ≠ .outside disk) :
    (c.run moves).engine.storage.Grounded (c.run moves).engine.disk base := by
  induction moves using List.reverseRecOn with
  | nil => exact h
  | append_singleton moves m ih =>
    rw [run_concat]
    exact grounded_step (ih fun m hm => halone m (List.mem_append_left _ hm))
      (halone m (List.mem_append_right _ (List.mem_singleton_self m)))

/-! ## Files that come and go -/

theorem isSome_contentOf?_place (d : Disk) (handle : OpenFile) (position : Nat) (bytes : Bytes)
    (loc : Location) :
    ((d.place handle position bytes).contentOf? loc).isSome = (d.contentOf? loc).isSome := by
  unfold Disk.place
  split
  · rename_i serial content hthere
    split
    · unfold Disk.contentOf?
      rw [Disk.get?_set d (Disk.ne_nil_of_get? hthere)]
      by_cases hloc : loc = handle.loc
      · rw [if_pos hloc, hloc, hthere]
        rfl
      · rw [if_neg hloc]
    · rfl
  · rfl

/-- A file is there after an operation that opened it, and where it was there. -/
theorem isSome_operate_iff (h : c.engine.storage.Grounded c.engine.disk base) (u : Underway) :
    ((c.operate u).1.contentOf? (base ++ file)).isSome = true ↔
      (Storage.resolve u.flight.pump.path = .ok file ∧ u.delivery = .opening ∧
        ∃ w, (c.operate u).2 = .onward (.seeking w)) ∨ c.HasFile base file := by
  unfold operate HasFile
  cases hdelivery : u.delivery with
  | directories =>
    have hsame : (c.engine.storage.makeWay c.engine.disk u.flight.pump.path).1.contentOf?
        (base ++ file) = c.engine.disk.contentOf? (base ++ file) := by
      cases hpath : Storage.resolve u.flight.pump.path with
      | error err => simp only [Storage.makeWay, hpath]
      | ok names => exact (Storage.paves_makeWay h hpath).contentOf?_eq file
    rw [← hsame]
    unfold Delivery.advance
    cases c.engine.storage.makeWay c.engine.disk u.flight.pump.path with
    | mk d' result => cases result <;> simp
  | opening =>
    unfold Delivery.advance
    cases hopen : c.engine.storage.openFile c.engine.disk u.flight.pump.path with
    | mk d' result =>
      cases hpath : Storage.resolve u.flight.pump.path with
      | error err =>
        simp only [Storage.openFile, hpath] at hopen
        cases hopen
        simp
      | ok names =>
        obtain ⟨htends, hopened, hrefused⟩ := Storage.tends_openFile h hpath
        rw [hopen] at htends hopened hrefused
        cases result with
        | error err =>
          have hsame : d' = c.engine.disk := hrefused err rfl
          simp [hsame]
        | ok handle =>
          obtain ⟨-, content, hthere⟩ := hopened handle rfl
          by_cases hfile : file = names
          · -- the file was opened, so it is there
            subst hfile
            have hthere : d'.get? (base ++ file) = some (.file handle.serial content) := hthere
            simp [Disk.contentOf?, hthere]
          · have hsame := htends.contentOf?_eq hfile
            have hother : names ≠ file := Ne.symm hfile
            simp [hsame, hother]
  | seeking w =>
    unfold Delivery.advance
    dsimp only
    split
    · simp
    · split <;> simp
  | writing w done =>
    have hsame := isSome_contentOf?_place c.engine.disk w.file (u.flight.fragment.position + done)
      (u.flight.fragment.bytes.extract done (done + FileWriter.burst)) (base ++ file)
    unfold Delivery.advance
    dsimp only
    rw [← hsame]
    split <;> simp

theorem isSome_contentOf?_fail {s : Storage} (h : s.Grounded d base) (path : String) (f : Fragment)
    (count : Nat) (x : Delivery) :
    ((x.fail s path f count d).contentOf? (base ++ file)).isSome =
      (d.contentOf? (base ++ file)).isSome := by
  cases x with
  | directories =>
    cases hpath : Storage.resolve path with
    | error err => simp only [Delivery.fail, Storage.makeSome, hpath]
    | ok names =>
      exact congrArg Option.isSome ((Storage.paves_makeSome h hpath count).contentOf?_eq file)
  | opening => rfl
  | seeking w => rfl
  | writing w done => exact isSome_contentOf?_place d w.file _ _ _

theorem answer_discard (e : Engine) (path : String) :
    (e.discard path).2 = (e.storage.delete e.disk path).2 := by
  show ((e.remove path).storage.delete (e.remove path).disk path).2 = _
  rw [(Engine.later_remove e path).storage, disk_remove]

theorem hasFile_operates (h : c.engine.storage.Grounded c.engine.disk base)
    {fault : Option DiskFault} (hoperates : c.operates m = some (u, fault)) :
    (c.step m).HasFile base file ↔ (∃ n, c.Opens file n m) ∨ c.HasFile base file := by
  unfold HasFile
  rw [disk_operates hoperates]
  cases fault with
  | none =>
    refine (isSome_operate_iff h u).trans (or_congr_left ?_)
    simp [Opens, hoperates]
  | some fault =>
    rw [Underway.effect, Delivery.effect, isSome_contentOf?_fail h]
    simp [Opens, hoperates]

theorem hasFile_discard (h : c.engine.storage.Grounded c.engine.disk base) (path : String) :
    (c.step (.discard path)).HasFile base file ↔
      c.HasFile base file ∧ ¬ c.Deletes file (.discard path) := by
  have hdeletes : c.Deletes file (.discard path) ↔ Storage.resolve path = .ok file ∧
      (c.engine.storage.delete c.engine.disk path).2 = .ok true := by
    simp [Deletes, answer_discard]
  unfold HasFile
  rw [disk_discard, hdeletes]
  cases hpath : Storage.resolve path with
  | error err => simp [Storage.delete, hpath]
  | ok names =>
    obtain ⟨hdeleted, herased, serial, content, hfile⟩ | ⟨hnot, hsame⟩ :=
      Storage.delete_cases h hpath
    · by_cases heq : names = file
      · subst heq
        simp [hdeleted, herased, Disk.contentOf?, Disk.get?_erase _ (Disk.ne_nil_of_get? hfile)]
      · have hkept := (Storage.tends_delete h hpath).contentOf?_eq (Ne.symm heq)
        simp [hkept, heq]
    · simp [hsame, hnot]

/-- A file is there after a move that opened it, and where it was there and is not deleted. -/
theorem hasFile_step (h : c.engine.storage.Grounded c.engine.disk base)
    (halone : ∀ disk, m ≠ .outside disk) : (c.step m).HasFile base file ↔
      (∃ n, c.Opens file n m) ∨ (c.HasFile base file ∧ ¬ c.Deletes file m) := by
  cases hoperates : c.operates m with
  | some x =>
    have hkeeps : ¬ c.Deletes file m := by
      rintro ⟨q, rfl, -⟩
      cases hoperates
    rw [hasFile_operates h hoperates, and_iff_left hkeeps]
  | none =>
    have hopens : ¬ ∃ n, c.Opens file n m := by
      rintro ⟨n, u, hu, -⟩
      rw [hoperates] at hu
      cases hu
    rw [or_iff_right hopens]
    by_cases hm : ∃ path, m = .discard path
    · obtain ⟨path, rfl⟩ := hm
      exact hasFile_discard h path
    · have hkeeps : ¬ c.Deletes file m := fun ⟨q, hq, _⟩ => hm ⟨q, hq⟩
      have hsame : (c.step m).engine.disk = c.engine.disk := by
        obtain hsame | ⟨u, fault, hu, -⟩ | ⟨path, hpath, -⟩ | ⟨disk, hdisk⟩ := disk_step c m
        · exact hsame
        · rw [hoperates] at hu
          cases hu
        · exact absurd ⟨path, hpath⟩ hm
        · exact absurd hdisk (halone disk)
      rw [and_iff_left hkeeps, HasFile, hsame, HasFile]

/-! ## Pumps that have a file still to open -/

/-- A pump was owed an operation already, and had no more open than it has. -/
def Stood (c : Course) (u : Underway) : Prop :=
  ∃ v ∈ c.owed, v.number = u.number ∧ v.flight.pump.path = u.flight.pump.path ∧
    (u.delivery.writer? = none → v.delivery.writer? = none)

/-- An upload is registered at the path of a pump. -/
def Known (c : Course) (u : Underway) : Prop :=
  c.engine.registry.find? u.flight.pump.path ≠ none

theorem mem_owed : u ∈ c.owed ↔ u ∈ c.live ∨ u ∈ c.adrift := List.mem_append

theorem stood_of_mem (hu : u ∈ c.owed) : c.Stood u := ⟨u, hu, rfl, rfl, id⟩

theorem path_of_begin {e : Engine} {flight : Flight} (h : (e.begin path).2 = .inFlight flight) :
    flight.pump.path = path ∧ e.registry.find? path ≠ none := by
  obtain ⟨-, hbegin⟩ | ⟨r, hr, ⟨-, hbegin⟩ | ⟨-, hbegin⟩ | ⟨-, -, hbegin⟩⟩ := e.begin_cases path
  · rw [hbegin] at h
    cases h
  · rw [hbegin] at h
    cases h
  · rw [hbegin] at h
    cases h
  · rw [hbegin] at h
    rw [pump_of_takeNext h, hr]
    exact ⟨rfl, Option.some_ne_none r⟩

theorem mem_begin_path (hu : u ∈ (c.begin path).live) : u ∈ c.live ∨
    (u.flight.pump.path = path ∧ c.engine.registry.find? path ≠ none) := by
  rcases List.mem_append.mp hu with hu | hu
  · obtain ⟨hpath, hknown⟩ := path_of_begin (mem_standing hu).1
    exact .inr ⟨hpath, hknown⟩
  · exact .inl hu

theorem mem_beginMany_path {paths : List String} (hu : u ∈ (paths.foldl begin c).live) :
    u ∈ c.live ∨ u.flight.pump.path ∈ paths := by
  induction paths generalizing c with
  | nil => exact .inl hu
  | cons path rest ih =>
    rcases ih hu with hu | hmem
    · rcases mem_begin_path hu with hu | ⟨hpath, -⟩
      · exact .inl hu
      · exact .inr (hpath ▸ List.mem_cons_self)
    · exact .inr (List.mem_cons_of_mem path hmem)

theorem mem_land_known {v : Underway} {result : Except OsError FileWriter}
    (hv : v ∈ (c.land u result).live) : v ∈ c.live ∨ c.Known v := by
  rcases List.mem_append.mp hv with hv | hv
  · right
    have hstate := (mem_standing hv).1
    cases hr : c.engine.registry.owned? u.flight.pump.path u.flight.pump.id with
    | none =>
      simp only [hr] at hstate
      cases hstate
    | some r =>
      have hpath : v.flight.pump.path = u.flight.pump.path := by
        simp only [hr] at hstate
        cases result <;> rw [pump_of_takeNext hstate] <;> rfl
      rw [Known, hpath, (Registry.owned?_eq_some_iff.mp hr).1]
      exact Option.some_ne_none r
  · exact .inl (List.mem_of_mem_eraseP hv)

/-- A pump that a move brings under way serves an upload that is registered. -/
theorem stood_or_known (hu : u ∈ (c.step m).live) : c.Stood u ∨ c.Known u := by
  have hof : u ∈ c.live ∨ c.Known u → c.Stood u ∨ c.Known u :=
    fun h => h.imp_left fun hlive => stood_of_mem (mem_owed.mpr (.inl hlive))
  cases c.stirs m with
  | rests hlive _ => exact hof (.inl (hlive ▸ hu))
  | begins c₀ hlive _ _ hregistered hstep =>
    rw [hstep] at hu
    refine hof ((mem_begin_path hu).imp (fun hu => hlive ▸ hu) ?_)
    rintro ⟨rfl, hknown⟩
    exact hregistered hknown
  | beginsMany _ hstep =>
    rw [hstep] at hu
    exact hof ((mem_beginMany_path hu).imp_right Registry.known_of_pending)
  | @turns v _ hv hstep =>
    have hv := List.mem_of_find?_eq_some hv
    rw [hstep] at hu
    obtain ⟨next, hadvance, hturn, -⟩ | ⟨result, -, hturn, -⟩ := c.turn_cases v
    · rw [hturn] at hu
      rcases List.mem_cons.mp hu with rfl | hu
      · exact .inl ⟨v, mem_owed.mpr (.inl hv), rfl, rfl, Delivery.writer?_of_onward hadvance⟩
      · exact hof (.inl (List.mem_of_mem_eraseP hu))
    · rw [hturn] at hu
      exact hof (mem_land_known (c := c.withDisk (v.effect c.engine none)) hu)
  | @faults v fault _ _ hstep =>
    rw [hstep] at hu
    exact hof (mem_land_known (c := c.withDisk (v.effect c.engine fault)) hu)
  | drops _ _ hstep =>
    rw [hstep] at hu
    exact hof (.inl (List.mem_of_mem_eraseP hu))
  | catches _ _ hstep =>
    rw [hstep] at hu
    exact hof (.inl hu)

theorem adrift_begin (c : Course) (path : String) : (c.begin path).adrift = c.adrift := rfl

theorem adrift_beginMany (paths : List String) (c : Course) :
    (paths.foldl begin c).adrift = c.adrift := by
  induction paths generalizing c with
  | nil => rfl
  | cons path rest ih => exact (ih _).trans (adrift_begin c path)

/-- Only a pump that was under way is dropped. -/
theorem mem_adrift_of_step (hu : u ∈ (c.step m).adrift) : u ∈ c.owed := by
  have hof : u ∈ c.adrift → u ∈ c.owed := fun h => mem_owed.mpr (.inr h)
  cases c.stirs m with
  | rests _ hadrift => exact hof (hadrift ▸ hu)
  | begins c₀ _ hadrift _ _ hstep =>
    rw [hstep] at hu
    exact hof (hadrift ▸ hu)
  | beginsMany _ hstep =>
    rw [hstep, adrift_beginMany] at hu
    exact hof hu
  | turns _ _ hstep =>
    rw [hstep, turn] at hu
    split at hu <;> exact hof hu
  | faults _ _ hstep =>
    rw [hstep] at hu
    exact hof hu
  | drops _ hv hstep =>
    rw [hstep] at hu
    rcases List.mem_cons.mp hu with rfl | hu
    · exact mem_owed.mpr (.inl (List.mem_of_find?_eq_some hv))
    · exact hof hu
  | catches _ _ hstep =>
    rw [hstep] at hu
    exact hof (List.mem_of_mem_eraseP hu)

/-- A file that no upload goes to gets no pump that has it still to open. -/
theorem unopened_of_step (hnone : c.pathsTo file = []) (h : (c.step m).Unopened file n) :
    c.Unopened file n := by
  obtain ⟨u, hu, hnumber, hpath, hwriter⟩ := h
  have horigin : c.Stood u ∨ c.Known u :=
    (mem_owed.mp hu).elim stood_or_known fun hu => .inl (stood_of_mem (mem_adrift_of_step hu))
  rcases horigin with ⟨v, hv, hsame, hsamePath, hopen⟩ | hknown
  · exact ⟨v, hv, hsame.trans hnumber, by rwa [hsamePath], hopen hwriter⟩
  · obtain ⟨r, hr⟩ := Option.ne_none_iff_exists'.mp hknown
    have hmem := mem_pathsTo.mpr ⟨⟨r, hr⟩, hpath⟩
    rw [hnone] at hmem
    cases hmem

theorem unopened_of_run {moves : List Move}
    (hnone : ∀ pre post, moves = pre ++ post → (c.run pre).pathsTo file = [])
    (h : (c.run moves).Unopened file n) : c.Unopened file n := by
  induction moves using List.reverseRecOn with
  | nil => exact h
  | append_singleton moves m ih =>
    rw [run_concat] at h
    have hbefore := unopened_of_step (hnone moves [m] rfl) h
    refine ih (fun pre post hsplit => hnone pre (post ++ [m]) ?_) hbefore
    rw [hsplit, List.append_assoc]

theorem mem_of_operates {fault : Option DiskFault} (h : c.operates m = some (u, fault)) :
    u ∈ c.owed := by
  cases m with
  | turn n =>
    obtain ⟨v, hv, heq⟩ := Option.map_eq_some_iff.mp h
    cases heq
    exact mem_owed.mpr (.inl (List.mem_of_find?_eq_some hv))
  | fault n x =>
    obtain ⟨v, hv, heq⟩ := Option.map_eq_some_iff.mp h
    cases heq
    exact mem_owed.mpr (.inl (List.mem_of_find?_eq_some hv))
  | late n x =>
    obtain ⟨v, hv, heq⟩ := Option.map_eq_some_iff.mp h
    cases heq
    exact mem_owed.mpr (.inr (List.mem_of_find?_eq_some hv))
  | _ => cases h

theorem Opens.unopened (h : c.Opens file n m) : c.Unopened file n := by
  obtain ⟨u, hoperates, hnumber, hpath, hdelivery, -⟩ := h
  exact ⟨u, mem_of_operates hoperates, hnumber, hpath, by rw [hdelivery]; rfl⟩

/-! ## A file along a run -/

/-- No move of a run deletes a file. -/
def Undeleted (c : Course) (file : Location) (moves : List Move) : Prop :=
  c.Obeys (fun c m => ¬ c.Deletes file m) moves

/-- A file is opened for a pump by a move of a run, and not deleted since. -/
def Makes (c : Course) (file : Location) (n : Nat) (moves : List Move) : Prop :=
  ∃ pre m post, moves = pre ++ m :: post ∧ (c.run pre).Opens file n m ∧
    (c.run (pre ++ [m])).Undeleted file post

theorem undeleted_concat {moves : List Move} : c.Undeleted file (moves ++ [m]) ↔
    c.Undeleted file moves ∧ ¬ (c.run moves).Deletes file m := by
  simp [Undeleted, obeys_append, Obeys]

theorem makes_concat {moves : List Move} : c.Makes file n (moves ++ [m]) ↔
    (c.run moves).Opens file n m ∨ (c.Makes file n moves ∧ ¬ (c.run moves).Deletes file m) := by
  constructor
  · rintro ⟨pre, k, post, hsplit, hopens, hkeeps⟩
    obtain rfl | ⟨post, last, rfl⟩ := List.eq_nil_or_concat post
    · obtain ⟨rfl, hm⟩ := List.append_inj' hsplit rfl
      rw [List.singleton_inj.mp hm]
      exact .inl hopens
    · rw [List.concat_eq_append, ← List.cons_append, ← List.append_assoc] at hsplit
      obtain ⟨rfl, hm⟩ := List.append_inj' hsplit rfl
      obtain rfl := List.singleton_inj.mp hm
      rw [List.concat_eq_append, undeleted_concat] at hkeeps
      refine .inr ⟨⟨pre, k, post, rfl, hopens, hkeeps.1⟩, ?_⟩
      have hkept := hkeeps.2
      rwa [run, run, ← List.foldl_append, List.append_assoc] at hkept
  · rintro (hopens | ⟨⟨pre, k, post, rfl, hopens, hkeeps⟩, hkept⟩)
    · exact ⟨moves, m, [], rfl, hopens, trivial⟩
    · refine ⟨pre, k, post ++ [m], by simp, hopens, undeleted_concat.mpr ⟨hkeeps, ?_⟩⟩
      rwa [run, run, ← List.foldl_append, List.append_assoc]

/-- A file is there if it was there and was not deleted, or was opened and not deleted since. -/
theorem hasFile_run_iff {moves : List Move} (h : c.engine.storage.Grounded c.engine.disk base)
    (halone : ∀ m ∈ moves, ∀ disk, m ≠ .outside disk) : (c.run moves).HasFile base file ↔
      (c.HasFile base file ∧ c.Undeleted file moves) ∨ ∃ n, c.Makes file n moves := by
  induction moves using List.reverseRecOn with
  | nil =>
    constructor
    · exact fun hthere => .inl ⟨hthere, trivial⟩
    · rintro (⟨hthere, -⟩ | ⟨n, pre, m, post, hsplit, -⟩)
      · exact hthere
      · simp at hsplit
  | append_singleton moves m ih =>
    have halone' : ∀ m ∈ moves, ∀ disk, m ≠ .outside disk :=
      fun m hm => halone m (List.mem_append_left _ hm)
    rw [run_concat, hasFile_step (grounded_run h halone')
      (halone m (List.mem_append_right _ (List.mem_singleton_self m))), ih halone', undeleted_concat]
    simp only [makes_concat, exists_or, exists_and_right]
    rw [or_and_right, and_assoc, or_left_comm]

end Course

/-- The file of a discarded upload comes back by a pump that had it still to open, and only so. Where a
discard was answered, and no upload goes to its file then or later, the file is there at a later moment
if and only if it was opened since for a pump that had it still to open at the discard, and nothing
deleted it after that. The pump may have been under way at the discard, or dropped with the disk still
owing it an operation; and it may be dropped later, and the file opened after that. Pumps that had the
file open, and pumps that were owed nothing, do not bring it back. -/
theorem discarded_file_comes_back_iff (disk : Disk) (storage : Storage)
    (writers maxSize capacity : Nat) (base : Location) (hgrounded : storage.Grounded disk base)
    (before later : List Move) (path : String) (names : Location) (deleted : Bool)
    (hpath : Storage.resolve path = .ok names)
    (halone : ∀ m ∈ before ++ later, ∀ d, m ≠ .outside d) :
    let c := (Course.new (.new disk storage writers maxSize capacity)).run before
    let discarded := c.step (.discard path)
    (c.engine.discard path).2 = .ok deleted →
    (∀ pre post, later = pre ++ post → (discarded.run pre).pathsTo names = []) →
    ((discarded.run later).HasFile base names ↔
      ∃ n, c.Unopened names n ∧ discarded.Makes names n later) := by
  intro c discarded hanswer hnone
  have htree : c.engine.storage.Grounded c.engine.disk base :=
    Course.grounded_run hgrounded fun m hm => halone m (List.mem_append_left _ hm)
  have hgone : ¬ discarded.HasFile base names := by
    rw [Course.answer_discard] at hanswer
    rw [Course.HasFile, Course.disk_discard, htree.delete_leaves_no_file hpath hanswer]
    exact Bool.false_ne_true
  have htree' : discarded.engine.storage.Grounded discarded.engine.disk base :=
    Course.grounded_step htree fun _ h => by cases h
  rw [Course.hasFile_run_iff htree' fun m hm => halone m (List.mem_append_right _ hm)]
  constructor
  · rintro (⟨hthere, -⟩ | ⟨n, pre, m, post, rfl, hopens, hkeeps⟩)
    · exact absurd hthere hgone
    · -- who opens the file had it to open when the discard came, as nobody new goes to it
      have hstill : discarded.Unopened names n := by
        refine Course.unopened_of_run (fun first rest hsplit => ?_) hopens.unopened
        apply hnone first (rest ++ m :: post)
        rw [hsplit, List.append_assoc]
      refine ⟨n, ?_, pre, m, post, rfl, hopens, hkeeps⟩
      obtain ⟨u, hu, hunopened⟩ := hstill
      refine ⟨u, ?_, hunopened⟩
      have howed : discarded.owed = c.owed := by
        simp only [discarded, Course.step, Course.removed]
        split <;> rfl
      rwa [howed] at hu
  · rintro ⟨n, -, hmakes⟩
    exact .inr ⟨n, hmakes⟩

/-- An upload with a pump under way, which has done nothing yet. -/
def aboutToOpen : List Move := [.init "a" 4 0 "a", .submit "a" ⟨0, #[1, 2, 3, 4]⟩]

/-- The moves of the pump from then on to its end. -/
def fourTurns : List Move := [.turn 0, .turn 0, .turn 0, .turn 0]

/-- The upload is discarded, and its pump goes on. -/
def discardedMeanwhile : Course :=
  ((Course.new (.new emptyBase ⟨"up"⟩ 1 100 16)).run aboutToOpen).step (.discard "a")

theorem aboutToOpen_alone : ∀ m ∈ aboutToOpen ++ fourTurns, ∀ d, m ≠ .outside d := by
  intro m hm d
  rintro rfl
  simp [aboutToOpen, fourTurns] at hm

theorem discardedMeanwhile_free (pre post : List Move) (h : fourTurns = pre ++ post) :
    (discardedMeanwhile.run pre).pathsTo ["a"] = [] := by
  have hall : ∀ pre ∈ fourTurns.inits, (discardedMeanwhile.run pre).pathsTo ["a"] = [] := by decide
  exact hall pre ((List.mem_inits _ _).mpr ⟨post, h.symm⟩)

/-- The file is there again, by a pump that had it still to open. -/
theorem discarded_file_is_back :
    (discardedMeanwhile.run fourTurns).HasFile ["up"] ["a"] ∧
      ∃ n, ((Course.new (.new emptyBase ⟨"up"⟩ 1 100 16)).run aboutToOpen).Unopened ["a"] n ∧
        discardedMeanwhile.Makes ["a"] n fourTurns := by
  have hback : (discardedMeanwhile.run fourTurns).HasFile ["up"] ["a"] := by
    show _ = true
    decide
  exact ⟨hback, (discarded_file_comes_back_iff emptyBase ⟨"up"⟩ 1 100 16 ["up"] emptyBase_grounded
    aboutToOpen fourTurns "a" ["a"] false (by decide) aboutToOpen_alone (by rfl)
    discardedMeanwhile_free).mp hback⟩

/-- So it is where the pump is dropped, and the disk opens the file after the discard. -/
example : ((Course.new (.new emptyBase ⟨"up"⟩ 1 100 16)).run
    (aboutToOpen ++ [.turn 0, .drop 0, .discard "a", .late 0 none])).HasFile ["up"] ["a"] := by
  show _ = true
  decide

/-- To discard an upload need not leave its file deleted. -/
theorem file_of_discarded_upload_stays :
    ¬ ∀ (disk : Disk) (storage : Storage) (writers maxSize capacity : Nat) (base : Location),
      storage.Grounded disk base → ∀ (before later : List Move) (path : String) (names : Location)
      (deleted : Bool), Storage.resolve path = .ok names →
      (∀ m ∈ before ++ later, ∀ d, m ≠ .outside d) →
      let c := (Course.new (.new disk storage writers maxSize capacity)).run before
      let discarded := c.step (.discard path)
      (c.engine.discard path).2 = .ok deleted →
      (∀ pre post, later = pre ++ post → (discarded.run pre).pathsTo names = []) →
      (∀ r, c.engine.registry.find? path = some r → (discarded.run later).serving r.id = []) →
      ¬ (discarded.run later).HasFile base names := by
  intro h
  have hended : (discardedMeanwhile.run fourTurns).live = [] :=
    List.length_eq_zero_iff.mp (by decide)
  have hgone := h emptyBase ⟨"up"⟩ 1 100 16 ["up"] emptyBase_grounded aboutToOpen fourTurns "a" ["a"]
    false (by decide) aboutToOpen_alone (by rfl) discardedMeanwhile_free
    fun r _ => congrArg (List.filter _) hended
  apply hgone
  show _ = true
  decide

end ResumableUpload
