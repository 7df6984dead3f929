import ResumableUpload.Proofs.Course.Agree
import ResumableUpload.Proofs.Course.Stale

/-
  Outstanding — how many writes are on their way to one file

  A pump under way has a fragment on its way to the file of its path. Slots are
  given by registrations, so what is bounded is the number of writes of one
  upload, not of one file: an upload that is removed leaves its write on the
  way, and its path may be registered again before that write is done. No other
  write is left behind, since nobody takes a fragment for an upload that is
  gone. A pump that was dropped is not under way: its fragment is done with, and
  what the disk still owes of it (`Course.adrift`) is not counted.

  What is held:
    1. `OnePump` — one pump for each registration, there or gone.
    2. `LeftBehind` — the upload is gone, and the hands that serve it are those
       that did then.
    3. `Accounted` — no upload is gone whose removal was not told.
    4. `Course.writingTo` — the pumps with a fragment on its way to a file.

  What is proved:
    1. `onePump_change`, `leftBehind_change`, `accounted_change` — every change
       keeps them.
    2. `removed_of_gone` — an upload that is gone was removed by a move.
    3. `one_write_per_upload` — one write of each upload at most, removed or
       not; so the writes to a file are no more than the registered paths that
       name it, beside those that removed uploads left behind.
    4. `two_writes_to_one_file` — there may be two, where one upload is gone.
-/

namespace ResumableUpload

/-- The file that a pump writes. -/
def Underway.file? (u : Underway) : Option Location :=
  (Storage.resolve u.flight.pump.path).toOption

namespace Course

/-- The pumps with a fragment on its way to a file. -/
def writingTo (c : Course) (file : Location) : List Underway :=
  c.live.filter fun u => u.file? = some file

/-- Whether a pump serves an upload that is there. -/
def servesPresent (c : Course) (u : Underway) : Bool :=
  (c.engine.registry.owned? u.flight.pump.path u.flight.pump.id).isSome

/-- The registered paths that name a file. -/
def pathsTo (c : Course) (file : Location) : List String :=
  c.engine.registry.paths.filter fun path => (Storage.resolve path).toOption = some file

end Course

/-- No two pumps serve one registration, be it there or gone. -/
def OnePump (v : View) : Prop := ∀ id, servers v.hands id ≤ 1

theorem onePump_change {ceiling : Nat} {v w : View} (hc : Change ceiling v w)
    (hslots : Slots ceiling v) (h : OnePump v) : OnePump w := by
  have hrest : ∀ {x : Hand} {rest : List Hand}, v.hands = x :: rest → ∀ id, servers rest id ≤ 1 := by
    intro x rest hh id
    have hone := h id
    rw [hh, servers_cons] at hone
    omega
  have hsame : ∀ {n path i x rest}, v.hands = (⟨n, path, i, x⟩ :: rest : List Hand) → ∀ y id,
      servers (⟨n, path, i, y⟩ :: rest) id ≤ 1 := by
    intro n path i x rest hh y id
    have hone := h id
    rw [hh, servers_cons] at hone
    rw [servers_cons]
    exact hone
  cases hc with
  | @grant path r hr hfree hroom =>
    intro id
    show servers (⟨v.nextPump, path, r.id, none⟩ :: v.hands) id ≤ 1
    rw [servers_cons]
    by_cases hid : r.id = id
    · -- the slot was free, so nobody serves the upload yet
      have hserved := hslots.served path r hr
      rw [hfree, hid, Bool.toNat_false] at hserved
      rw [hserved, if_pos hid]
    · rw [if_neg hid]
      exact h id
  | take hh hr hpop => exact hsame hh _
  | release hh hr hempty => exact hrest hh
  | write hh hr => exact hsame hh _
  | fail cause hh hr => exact hsame hh _
  | abandon hh hr => exact hrest hh
  | stray hh hr => exact hrest hh
  | leave hh hr => exact hrest hh
  | arrange hperm hn =>
    intro id
    rw [servers, ← hperm.countP_eq]
    exact h id
  | _ => exact h

/-! ## What a removed upload leaves behind -/

/-- The upload is gone, and the hands that serve it are among those that did then. -/
structure LeftBehind (id : UploadId) (hands : List Hand) (v : View) : Prop extends Gone id v where
  hands : ∀ x ∈ v.hands, x.id = id → x ∈ hands

theorem leftBehind_change {id : UploadId} {hands : List Hand} {ceiling : Nat} {v w : View}
    (hc : Change ceiling v w) (h : LeftBehind id hands v) : LeftBehind id hands w := by
  refine ⟨gone_change hc h.toGone, ?_⟩
  intro x hx hid
  rcases hand_change hc hx with hmem | ⟨⟨r, hr⟩, -⟩
  · exact h.hands x hmem hid
  · rw [hid, h.owned?] at hr
    cases hr

/-- Each registration is there, or its removal was told. -/
def Accounted (v : View) : Prop := ∀ id, id < v.registry.nextId → ∃ q, ThereOrTold q id v

theorem accounted_change {ceiling : Nat} {v w : View} (hc : Change ceiling v w) (h : Accounted v) :
    Accounted w := by
  intro id hid
  by_cases hold : id < v.registry.nextId
  · obtain ⟨q, hq⟩ := h id hold
    exact ⟨q, thereOrTold_change hc hq⟩
  · -- the number is new, so a registration took it
    rcases registry_change hc with hw | ⟨path, change, keeps, hw, -⟩ |
      ⟨path, size, owner, clientPath, t, hreg⟩ | ⟨path, r, -, hw, -⟩
    · rw [hw] at hid
      exact absurd hid hold
    · rw [hw] at hid
      exact absurd hid hold
    · obtain ⟨-, hnext, -⟩ := Registry.register_eq_ok hreg
      rw [hnext] at hid
      refine ⟨path, .inl ⟨.new v.registry.nextId path size owner clientPath, ?_, ?_⟩⟩
      · rw [Registry.find?_register hreg, if_pos rfl]
      · exact Nat.le_antisymm (Nat.le_of_not_lt hold) (Nat.le_of_lt_succ hid)
    · rw [hw] at hid
      exact absurd hid hold

namespace Course

/-- An upload that is gone was removed by one of the moves. -/
theorem removed_of_gone {e : Engine} (hempty : e.registry = .empty) {moves : List Move}
    {id : UploadId} (h : Gone id ((new e).run moves).view) :
    ∃ before gone later r, moves = before ++ gone :: later ∧
      ((new e).run before).removes gone = some r ∧ r.id = id := by
  have hstart : Accounted (new e).view := by
    intro n hn
    rw [new, view, hempty] at hn
    exact absurd hn (Nat.not_lt_zero n)
  have haccounted : Accounted ((new e).run moves).view :=
    keep_run (fun _ _ => accounted_change) hstart moves
  obtain ⟨q, ⟨r, hr, hid⟩ | htold⟩ := haccounted id h.id_lt
  · exact absurd ⟨q, r, hr, hid⟩ h.absent
  · have htale : ((new e).run moves).history.tale = (new e).tale moves := (new e).tale_run moves
    have htold : .removed q ∈ (((new e).run moves).history.of id).told := htold
    rw [History.told_of, htale] at htold
    obtain ⟨⟨n, event⟩, hx, rfl⟩ := List.mem_map.mp htold
    obtain ⟨hmem, hn⟩ := List.mem_filter.mp hx
    obtain rfl : n = id := of_decide_eq_true hn
    obtain ⟨before, gone, later, hmoves, htells⟩ := mem_tale hmem
    obtain ⟨r, hr, -, hid⟩ := removes_of_mem_tells htells
    exact ⟨before, gone, later, r, hmoves, hr, hid⟩

theorem hand_of_gone {e : Engine} (hempty : e.registry = .empty) {moves : List Move} {u : Underway}
    (hu : u ∈ ((new e).run moves).live)
    (hgone : Gone u.flight.pump.id ((new e).run moves).view) :
    ∃ before gone later r, moves = before ++ gone :: later ∧
      ((new e).run before).removes gone = some r ∧ r.id = u.flight.pump.id ∧
      u.hand ∈ ((new e).run before).view.hands := by
  obtain ⟨before, gone, later, r, rfl, hr, hid⟩ := removed_of_gone hempty hgone
  refine ⟨before, gone, later, r, rfl, hr, hid, ?_⟩
  have hsound : ((new e).run before).Sound := sound_run e hempty before
  obtain ⟨hmove, hfind⟩ := removes_eq_some hr
  -- nobody begins to serve the upload after its removal
  have hleft : LeftBehind r.id ((new e).run before).view.hands
      (((new e).run before).step gone).view := by
    refine ⟨gone_of_removed hsound hmove hfind, ?_⟩
    rw [view, (step_removed hmove hfind).2.1]
    exact fun x hx _ => hx
  have hlasts := (keep_run (fun _ _ => leftBehind_change) hleft later).hands
  apply hlasts u.hand _ hid.symm
  have hrun : (((new e).run before).step gone).run later = (new e).run (before ++ gone :: later) := by
    rw [run, run, run, List.foldl_append]
    rfl
  rw [hrun]
  exact List.mem_map_of_mem hu

theorem gone_of_absent {c : Course} (hsound : c.Sound) {u : Underway} (hu : u ∈ c.live)
    (habsent : c.servesPresent u = false) : Gone u.flight.pump.id c.view := by
  have hmem : u.hand ∈ c.view.hands := List.mem_map_of_mem hu
  refine ⟨?_, hsound.identity.hand_lt u.hand hmem⟩
  rintro ⟨q, r, hr, hid⟩
  obtain rfl : q = u.flight.pump.path := hsound.identity.hand_path u.hand hmem q r hr hid
  have howned : c.engine.registry.owned? u.flight.pump.path u.flight.pump.id = some r :=
    Registry.owned?_eq_some_iff.mpr ⟨hr, hid⟩
  rw [servesPresent, howned] at habsent
  cases habsent

/-! ## The writes to a file -/

theorem eq_of_serving {c : Course} {id : UploadId} (hone : (c.serving id).length ≤ 1)
    {u v : Underway} (hu : u ∈ c.serving id) (hv : v ∈ c.serving id) : u = v := by
  cases hl : c.serving id with
  | nil =>
    rw [hl] at hu
    cases hu
  | cons x rest =>
    rw [hl] at hone hu hv
    obtain rfl : rest = [] := by simpa using hone
    rw [List.mem_singleton.mp hu, List.mem_singleton.mp hv]

theorem eq_of_path {c : Course} (hone : ∀ id, (c.serving id).length ≤ 1) {u v : Underway}
    (hu : u ∈ c.live) (hv : v ∈ c.live) (hus : c.servesPresent u = true)
    (hvs : c.servesPresent v = true) (hpath : u.flight.pump.path = v.flight.pump.path) : u = v := by
  obtain ⟨r, hr⟩ := Option.isSome_iff_exists.mp hus
  obtain ⟨s, hs⟩ := Option.isSome_iff_exists.mp hvs
  obtain ⟨hr, hrid⟩ := Registry.owned?_eq_some_iff.mp hr
  obtain ⟨hs, hsid⟩ := Registry.owned?_eq_some_iff.mp hs
  rw [hpath, hs] at hr
  obtain rfl : s = r := Option.some.inj hr
  have hmem : ∀ x ∈ c.live, s.id = x.flight.pump.id → x ∈ c.serving s.id := by
    intro x hx hid
    exact List.mem_filter.mpr ⟨hx, decide_eq_true hid.symm⟩
  exact eq_of_serving (hone s.id) (hmem u hu hrid) (hmem v hv hsid)

/-- Of the pumps that write a file, those of uploads that are there have different paths, and each path
names the file. -/
theorem length_writingTo_le {c : Course} (hnumbers : Numbering c.view)
    (hone : ∀ id, (c.serving id).length ≤ 1) (file : Location) :
    ((c.writingTo file).filter c.servesPresent).length ≤ (c.pathsTo file).length := by
  have hmem : ∀ u ∈ (c.writingTo file).filter c.servesPresent,
      u ∈ c.live ∧ u.file? = some file ∧ c.servesPresent u = true := by
    intro u hu
    obtain ⟨hwriting, hpresent⟩ := List.mem_filter.mp hu
    obtain ⟨hlive, hfile⟩ := List.mem_filter.mp hwriting
    exact ⟨hlive, of_decide_eq_true hfile, hpresent⟩
  have hnodup : ((c.writingTo file).filter c.servesPresent).Nodup :=
    ((List.Nodup.of_map _ (nodup_numbers hnumbers)).filter _).filter _
  have hpaths : (((c.writingTo file).filter c.servesPresent).map
      fun u => u.flight.pump.path).Nodup := by
    apply List.Nodup.map_on _ hnodup
    intro u hu v hv hpath
    obtain ⟨hulive, -, hus⟩ := hmem u hu
    obtain ⟨hvlive, -, hvs⟩ := hmem v hv
    exact eq_of_path hone hulive hvlive hus hvs hpath
  rw [← List.length_map fun u : Underway => u.flight.pump.path]
  apply (hpaths.subperm _).length_le
  intro path hpath
  obtain ⟨u, hu, rfl⟩ := List.mem_map.mp hpath
  obtain ⟨-, hfile, hpresent⟩ := hmem u hu
  obtain ⟨r, hr⟩ := Option.isSome_iff_exists.mp hpresent
  obtain ⟨hfind, hpath⟩ := Registry.find?_eq_some_iff.mp (Registry.owned?_eq_some_iff.mp hr).1
  refine List.mem_filter.mpr ⟨?_, decide_eq_true hfile⟩
  rw [← hpath]
  exact List.mem_map_of_mem hfind

end Course

/-- An upload has one write outstanding at most, be it there or removed meanwhile. So the writes that
are outstanding against a file are no more than the registered paths that name it, beside those of
uploads that were removed; and such a write was outstanding, with the same fragment, when its upload
was removed. -/
theorem one_write_per_upload (disk : Disk) (storage : Storage) (writers maxSize capacity : Nat)
    (moves : List Move) :
    let start := Course.new (.new disk storage writers maxSize capacity)
    let c := start.run moves
    (∀ id, (c.serving id).length ≤ 1) ∧
    (∀ file, ((c.writingTo file).filter c.servesPresent).length ≤ (c.pathsTo file).length) ∧
    ∀ u ∈ c.live, c.servesPresent u = false →
      ∃ before gone later r, moves = before ++ gone :: later ∧
        (start.run before).removes gone = some r ∧ r.id = u.flight.pump.id ∧
        u.hand ∈ (start.run before).view.hands := by
  intro start c
  have hsound : c.Sound := Course.sound_run start.engine rfl moves
  have hone : OnePump c.view := by
    apply Course.keep_onward (c := start) (Course.sound_run start.engine rfl [])
    · exact fun v w hc hsound => onePump_change hc hsound.slots
    · intro id
      exact Nat.zero_le _
  have hserving : ∀ id, (c.serving id).length ≤ 1 := by
    intro id
    rw [← servers_view]
    exact hone id
  refine ⟨hserving, Course.length_writingTo_le hsound.numbering hserving, ?_⟩
  intro u hu habsent
  exact Course.hand_of_gone (e := start.engine) rfl hu (Course.gone_of_absent hsound hu habsent)

/-- An upload is removed while its write is outstanding, and its path is registered and written
again. -/
def removedAndWritten : List Move :=
  [.init "a" 4 0 "a", .submit "a" ⟨0, #[1, 2, 3, 4]⟩, .remove "a", .init "a" 4 0 "a",
    .submit "a" ⟨0, #[5, 6, 7, 8]⟩]

def writtenTwice : Course := (Course.new (.new .empty ⟨"up"⟩ 1 100 16)).run removedAndWritten

theorem writtenTwice_live : (writtenTwice.find? 0).isSome = true := by decide

/-- The first write is of the upload that was removed. -/
theorem first_write_is_left_behind :
    let u := (writtenTwice.find? 0).get writtenTwice_live
    writtenTwice.servesPresent u = false ∧ (writtenTwice.serving u.flight.pump.id).length ≤ 1 ∧
      ∃ before gone later r, removedAndWritten = before ++ gone :: later ∧
        ((Course.new (.new .empty ⟨"up"⟩ 1 100 16)).run before).removes gone = some r ∧
        r.id = u.flight.pump.id ∧
        u.hand ∈ ((Course.new (.new .empty ⟨"up"⟩ 1 100 16)).run before).view.hands := by
  intro u
  have hfind : writtenTwice.find? 0 = some u := (Option.some_get writtenTwice_live).symm
  have habsent : writtenTwice.servesPresent u = false := by decide
  obtain ⟨hone, -, hleft⟩ := one_write_per_upload .empty ⟨"up"⟩ 1 100 16 removedAndWritten
  exact ⟨habsent, hone u.flight.pump.id, hleft u (List.mem_of_find?_eq_some hfind) habsent⟩

/-- Two writes are outstanding against one file. -/
theorem two_writes_to_one_file :
    ¬ ∀ (disk : Disk) (storage : Storage) (writers maxSize capacity : Nat) (moves : List Move)
      (file : Location),
      (((Course.new (.new disk storage writers maxSize capacity)).run moves).writingTo file).length ≤
        1 := by
  intro h
  have htwo := h .empty ⟨"up"⟩ 1 100 16 removedAndWritten ["a"]
  revert htwo
  decide

end ResumableUpload
