import ResumableUpload.Proofs.Disk.Usage

/-
  Storing — what a storage touches below its base

  Each operation that a storage asks of the disk touches the file behind the
  names of its path, and no other. Beside it come directories: those between
  the base and the file that are missing. The base itself, and what it lies in,
  are there.

  What is proved:
    1. `Rooted.above`, `fills_makeAll` — the directories that are made.
    2. `fills_makeWay`, `fills_openFile`, `fills_place` — what the operations for
       an upload touch; `Rooted.openFile_cases` — the ways in which a file is
       opened, `sizeAt_place` — and how far it reaches after a write.
    3. `touches_delete` — what a deletion touches.
    4. `fileSize_eq` — the length of a file, as it is asked for.
    5. `usedBytes_eq_ok`, `Touches.readable` — the space in use can be read, and
       goes on to be.
-/

namespace ResumableUpload

namespace Storage

variable {s : Storage} {d d' : Disk} {base names ns : Location} {limit : Nat}

/-! ## The directories on the way -/

theorem Rooted.makeDirectory (h : s.Rooted d base) (hnames : ∀ x ∈ ns, IsName x) (hne : ns ≠ [])
    (hmade : d.makeDirectory (s.filePath ns) = .ok d') :
    d.get? (base ++ ns) = none ∧ (s.filePath ns).bytes ≤ OsPath.maxBytes ∧
      d' = d.set (base ++ ns) .directory := by
  obtain ⟨hyes, hno⟩ := h.locateName hnames hne
  unfold Disk.makeDirectory at hmade
  by_cases hclear : s.Clear d base ns
  · rw [hyes hclear, Disk.lies] at hmade
    cases hthere : d.get? (base ++ ns) with
    | some e =>
      rw [hthere] at hmade
      cases hmade
    | none =>
      rw [hthere] at hmade
      cases hmade
      exact ⟨rfl, (OsPath.check_eq_ok_iff.mp hclear.check).2, rfl⟩
  · obtain ⟨cause, hcause⟩ := hno hclear
    rw [hcause] at hmade
    cases hmade

/-- To make directories makes those of a list that are missing, and no file is touched. -/
theorem fills_makeAll (limit : Nat) {ps : List OsPath} (h : s.Rooted d base)
    (hps : ∀ p ∈ ps, d.isDirectory p = true ∨
      ∃ ns, p = s.filePath ns ∧ ns ≠ [] ∧ ∀ x ∈ ns, IsName x) :
    s.Fills base names limit d (d.makeAll ps).1 := by
  refine Disk.makeAll_keeps ?_ (Fills.refl s base names limit d)
  intro p hp e e' hfills hmade
  rcases hps p hp with hdir | ⟨ns, rfl, hne, hnames⟩
  · rw [Disk.makeDirectory_of_isDirectory (Disk.isDirectory_grown hfills.grown hdir)] at hmade
    cases hmade
  · obtain ⟨hfree, hlisted, rfl⟩ := (h.steady hfills.steady).makeDirectory hnames hne hmade
    exact hfills.trans (fills_directory hfree hlisted)

theorem leading_append (zs : List String) (hnames : ∀ x ∈ names, IsName x) (hne : names ≠ []) :
    OsPath.leading (zs ++ names) = zs ++ names := by
  obtain hnil | ⟨init, x, rfl⟩ := List.eq_nil_or_concat names
  · exact absurd hnil hne
  · have hx := hnames x (by simp)
    have hleads : OsPath.leads x = true := by simp [OsPath.leads, hx.nonempty, hx.notHere]
    simp [OsPath.leading, hleads]

theorem check_of_prefix {p q : OsPath} (hbegins : p.pieces <+: q.pieces) (hq : q.check = .ok ()) :
    p.check = .ok () := by
  obtain ⟨more, hmore⟩ := hbegins
  obtain ⟨hnul, hbytes⟩ := OsPath.check_eq_ok_iff.mp hq
  have hnul' : p.hasNul = false := by
    unfold OsPath.hasNul at hnul ⊢
    rw [← hmore, List.any_append, Bool.or_eq_false_iff] at hnul
    exact hnul.1
  have hle : p.bytes ≤ q.bytes := by
    have hsum : (q.pieces.map String.utf8ByteSize).sum =
        (p.pieces.map String.utf8ByteSize).sum + (more.map String.utf8ByteSize).sum := by
      rw [← hmore, List.map_append, List.sum_append]
    have hlength : q.pieces.length = p.pieces.length + more.length := by
      rw [← hmore, List.length_append]
    show (p.pieces.map String.utf8ByteSize).sum + (p.pieces.length - 1) ≤
      (q.pieces.map String.utf8ByteSize).sum + (q.pieces.length - 1)
    omega
  exact OsPath.check_eq_ok_iff.mpr ⟨hnul', Nat.le_trans hle hbytes⟩

theorem stem_prefix_pieces (p : OsPath) : p.stem <+: p.pieces := by
  unfold OsPath.stem
  split
  · exact List.dropLast_prefix _
  · exact List.prefix_refl _

/-- The base, and what it lies in, are directories. -/
theorem Rooted.isDirectory_stem (h : s.Rooted d base) {n : Nat}
    (hleads : (s.basePath.stem[n]?).any OsPath.leads = true) :
    d.isDirectory ⟨s.basePath.stem.take (n + 1)⟩ = true := by
  have htake : s.basePath.stem.take (n + 1) <+: s.basePath.stem := List.take_prefix _ _
  rw [Disk.isDirectory_iff]
  constructor
  · obtain ⟨hcheck, -⟩ := Disk.find_eq_directory.mp h.found
    exact check_of_prefix (htake.trans (stem_prefix_pieces _)) hcheck
  · have hsteps : (OsPath.mk (s.basePath.stem.take (n + 1))).steps =
        Disk.pieceSteps (s.basePath.stem.take (n + 1)) := by
      rw [OsPath.steps, if_neg]
      · rfl
      · intro hempty
        obtain ⟨piece, hpiece, hlead⟩ : ∃ piece, s.basePath.stem[n]? = some piece ∧
            OsPath.leads piece = true := by
          cases hpiece : s.basePath.stem[n]? with
          | none => simp [hpiece] at hleads
          | some piece => exact ⟨piece, rfl, by simpa [hpiece] using hleads⟩
        have hmem : piece ∈ s.basePath.stem.take (n + 1) := by
          apply List.mem_of_getElem? (i := n)
          rw [List.getElem?_take_of_lt (Nat.lt_succ_self n)]
          exact hpiece
        rw [show s.basePath.stem.take (n + 1) = [""] from hempty] at hmem
        rw [List.mem_singleton.mp hmem] at hlead
        cases hlead
    have hwalk := walk_stem h.found
    rw [← List.take_append_drop (n + 1) s.basePath.stem, Disk.pieceSteps, List.filter_append] at hwalk
    rw [hsteps]
    exact Disk.walk_prefix hwalk

/-- The paths that the path of a file leads through are the base, with what it lies in, and the
directories between it and the file. -/
theorem Rooted.above (h : s.Rooted d base) (hnames : ∀ x ∈ names, IsName x) (hne : names ≠ [])
    {p : OsPath} (hp : p ∈ (s.filePath names).above) :
    d.isDirectory p = true ∨ ∃ ns, p = s.filePath ns ∧ ns ≠ [] ∧ ∀ x ∈ ns, IsName x := by
  unfold OsPath.above at hp
  rw [filePath, OsPath.join_eq] at hp
  dsimp only at hp
  rw [leading_append _ hnames hne] at hp
  obtain ⟨n, hn, rfl⟩ := List.mem_map.mp hp
  obtain ⟨-, hleads⟩ := List.mem_filter.mp hn
  by_cases hstem : n < s.basePath.stem.length
  · left
    rw [List.take_append_of_le_length (by omega)]
    rw [List.getElem?_append_left hstem] at hleads
    exact h.isDirectory_stem hleads
  · right
    refine ⟨names.take (n + 1 - s.basePath.stem.length), ?_, ?_, ?_⟩
    · rw [List.take_append, List.take_of_length_le (by omega)]
      rfl
    · have hpos : 0 < names.length := List.length_pos_iff.mpr hne
      intro hnil
      have hlength := congrArg List.length hnil
      rw [List.length_take, List.length_nil] at hlength
      omega
    · exact fun x hx => hnames x (List.mem_of_mem_take hx)

/-! ## What a storage does -/

variable {path : String}

/-- To make the way to a file touches no file. -/
theorem Rooted.fills_makeWay (h : s.Rooted d base) (hpath : Storage.resolve path = .ok names)
    (limit : Nat) : s.Fills base names limit d (s.makeWay d path).1 := by
  obtain ⟨hne, hnames⟩ := resolve_eq_ok hpath
  have hmade : s.Fills base names limit d (d.makeParents (s.filePath names)).1 :=
    fills_makeAll limit h fun p hp => h.above hnames hne hp
  unfold makeWay
  rw [hpath]
  dsimp only
  split
  · rename_i d' cause hmake
    rw [hmake] at hmade
    exact hmade
  · rename_i d' hmake
    rw [hmake] at hmade
    exact hmade

/-- To open a file whose directories are there fails and changes nothing; or leads to the file that lies
behind the names; or makes it there. -/
theorem Rooted.openFile_cases (h : s.Rooted d base) (hpath : Storage.resolve path = .ok names) :
    (∃ err, s.openFile d path = (d, .error err)) ∨
    (s.Clear d base names ∧ ∃ serial content, d.get? (base ++ names) = some (.file serial content) ∧
      s.openFile d path = (d, .ok ⟨base ++ names, serial⟩)) ∨
    (s.Clear d base names ∧ d.get? (base ++ names) = none ∧
      s.openFile d path =
        (d.addFile (base ++ names) .empty, .ok ⟨base ++ names, d.nextSerial⟩)) := by
  obtain ⟨hne, hnames⟩ := resolve_eq_ok hpath
  obtain ⟨hyes, hno⟩ := h.locateFile hnames hne
  unfold openFile Disk.openForWriting
  simp only [hpath]
  by_cases hclear : s.Clear d base names
  · rw [hyes hclear, Disk.lies]
    cases hthere : d.get? (base ++ names) with
    | none => exact .inr (.inr ⟨hclear, rfl, rfl⟩)
    | some e =>
      cases e with
      | file serial content => exact .inr (.inl ⟨hclear, serial, content, rfl, rfl⟩)
      | directory => exact .inl ⟨_, rfl⟩
      | link target => exact absurd hthere (h.plain names target)
  · obtain ⟨cause, hcause⟩ := hno hclear
    rw [hcause]
    exact .inl ⟨_, rfl⟩

/-- A file that is opened lies behind its names; it is made if it is missing, and else stays as it is. -/
theorem Rooted.fills_openFile (h : s.Rooted d base) (hpath : Storage.resolve path = .ok names)
    (limit : Nat) :
    s.Fills base names limit d (s.openFile d path).1 ∧
      ∀ file, (s.openFile d path).2 = .ok file → file.loc = base ++ names ∧ s.Clear d base names ∧
        ∃ content, (s.openFile d path).1.get? file.loc = some (.file file.serial content) := by
  obtain ⟨hne, -⟩ := resolve_eq_ok hpath
  have hloc : base ++ names ≠ [] := by simp [hne]
  obtain ⟨err, hopen⟩ | ⟨hclear, serial, content, hthere, hopen⟩ | ⟨hclear, hfree, hopen⟩ :=
    h.openFile_cases hpath
  · rw [hopen]
    exact ⟨.refl s base names limit d, fun file hfile => by cases hfile⟩
  · rw [hopen]
    refine ⟨.refl s base names limit d, ?_⟩
    intro file hfile
    cases hfile
    exact ⟨rfl, hclear, content, hthere⟩
  · rw [hopen]
    have hzero : d.sizeAt (base ++ names) = 0 := by rw [Disk.sizeAt, hfree, Option.elim_none]
    have hfills : s.Fills base names limit d
        (d.set (base ++ names) (.file d.nextSerial .empty)) := by
      apply fills_file hloc (.inl hfree)
      · exact Nat.le_of_eq hzero
      · exact Nat.zero_le _
    refine ⟨hfills.congr rfl, ?_⟩
    intro file hfile
    cases hfile
    exact ⟨rfl, hclear, .empty, by rw [Disk.get?_addFile d hloc, if_pos rfl]⟩

/-- What is laid into a file grows it up to where it ends. -/
theorem fills_place {file : OpenFile} {position : Nat} {bytes : Bytes}
    (hloc : file.loc = base ++ names) (hlimit : bytes.size = 0 ∨ position + bytes.size ≤ limit) :
    s.Fills base names limit d (d.place file position bytes) := by
  unfold Disk.place
  split
  · rename_i serial content hthere
    split
    · rename_i hserial
      rw [hloc] at hthere ⊢
      have hsize : d.sizeAt (base ++ names) = content.size := by
        rw [Disk.sizeAt, hthere]
        rfl
      apply fills_file (Disk.ne_nil_of_get? hthere) (.inr ⟨content, hthere⟩)
      · rw [hsize, Content.size_overlay, Content.sizeAfter]
        split <;> omega
      · rw [hsize, Content.size_overlay, Content.sizeAfter]
        split <;> omega
    · exact .refl s base names limit d
  · exact .refl s base names limit d

/-- A file that is there, and was opened, is as long as what was laid into it needs. -/
theorem sizeAt_place {file : OpenFile} {content : Content}
    (hthere : d.get? file.loc = some (.file file.serial content)) (position : Nat) (bytes : Bytes)
    (hsome : bytes.size ≠ 0) :
    position + bytes.size ≤ (d.place file position bytes).sizeAt file.loc := by
  have hloc := Disk.ne_nil_of_get? hthere
  rw [Disk.place, hthere]
  dsimp only
  rw [if_pos rfl, Disk.sizeAt_set hloc, if_pos rfl]
  show _ ≤ (content.overlay position bytes).size
  rw [Content.size_overlay, Content.sizeAfter, if_neg hsome]
  omega

/-- A deletion takes the file away, or nothing. -/
theorem Rooted.touches_delete (h : s.Rooted d base) (hpath : Storage.resolve path = .ok names) :
    s.Touches base names d (s.delete d path).1 ∧
      (s.delete d path).1.sizeAt (base ++ names) ≤ d.sizeAt (base ++ names) := by
  obtain ⟨hne, hnames⟩ := resolve_eq_ok hpath
  obtain ⟨hyes, hno⟩ := h.locate hnames hne false
  have hloc : base ++ names ≠ [] := by simp [hne]
  have hsame : s.Touches base names d d ∧ d.sizeAt (base ++ names) ≤ d.sizeAt (base ++ names) :=
    ⟨(Fills.refl s base names 0 d).toTouches, Nat.le_refl _⟩
  unfold delete Disk.remove
  simp only [hpath]
  by_cases hclear : s.Clear d base names
  · rw [hyes hclear, Disk.lies]
    cases hthere : d.get? (base ++ names) with
    | none => exact hsame
    | some e =>
      cases e with
      | file serial content =>
        have hgone : (d.erase (base ++ names)).sizeAt (base ++ names) = 0 := by
          rw [Disk.sizeAt_erase hloc, if_pos rfl]
        refine ⟨⟨Disk.steady_erase hthere, ?_, ?_, ?_⟩, ?_⟩
        · intro ns hns
          show (d.erase (base ++ names)).sizeAt _ = _
          rw [Disk.sizeAt_erase hloc, if_neg]
          exact fun heq => hns (List.append_cancel_left heq)
        · show (d.erase (base ++ names)).usedBelow base + _ ≤ _ +
            (d.erase (base ++ names)).sizeAt (base ++ names)
          rw [hgone]
          exact Disk.usedBelow_erase hloc (List.prefix_append base names)
        · exact fun ns hns => .inl (Disk.directoriesBelow_erase hns)
        · exact Nat.le_trans (Nat.le_of_eq hgone) (Nat.zero_le _)
      | directory => exact hsame
      | link target => exact absurd hthere (h.plain names target)
  · obtain ⟨cause, hcause⟩ := hno hclear
    rw [hcause]
    cases cause <;> exact hsame

/-- The length of a file that is there. -/
theorem Rooted.fileSize_eq (h : s.Rooted d base) (hpath : Storage.resolve path = .ok names)
    (hclear : s.Clear d base names) (hsome : d.sizeAt (base ++ names) ≠ 0) :
    s.fileSize d path = .ok (d.sizeAt (base ++ names)) := by
  obtain ⟨hne, hnames⟩ := resolve_eq_ok hpath
  obtain ⟨hyes, -⟩ := h.locate hnames hne true
  unfold fileSize Disk.sizeOf Disk.find
  simp only [hpath, hyes hclear]
  unfold Disk.sizeAt at hsome ⊢
  unfold Disk.lies
  cases hthere : d.get? (base ++ names) with
  | none => simp [hthere] at hsome
  | some e =>
    cases e with
    | file serial content => rfl
    | directory => simp [hthere, Entry.fileSize] at hsome
    | link target => simp [hthere, Entry.fileSize] at hsome

/-! ## The space in use -/

/-- The space in use can be read where every directory can be listed. -/
theorem Rooted.usedBytes_eq_ok (h : s.Rooted d base) {used : Nat} :
    s.usedBytes d = .ok used ↔
      d.usedBelow base = used ∧
        ∀ ns ∈ d.directoriesBelow base, (s.filePath ns).bytes ≤ OsPath.maxBytes := by
  unfold usedBytes Disk.usedUnder
  rw [h.found]
  dsimp only
  have hany : ((d.directoriesBelow base).any fun ns =>
      decide (OsPath.maxBytes < (s.basePath.join ns).bytes)) = true ↔
      ¬ ∀ ns ∈ d.directoriesBelow base, (s.filePath ns).bytes ≤ OsPath.maxBytes := by
    simp [filePath]
  split
  · rename_i hlong
    constructor
    · intro hused
      cases hused
    · rintro ⟨-, hall⟩
      exact absurd hall (hany.mp hlong)
  · rename_i hshort
    have hall := Classical.not_not.mp fun hnot => hshort (hany.mpr hnot)
    constructor
    · exact fun hused => ⟨Except.ok.inj hused, hall⟩
    · rintro ⟨rfl, -⟩
      rfl

/-- The space in use goes on to be readable. -/
theorem Touches.readable (h : s.Touches base names d d')
    (hlisted : ∀ ns ∈ d.directoriesBelow base, (s.filePath ns).bytes ≤ OsPath.maxBytes) :
    ∀ ns ∈ d'.directoriesBelow base, (s.filePath ns).bytes ≤ OsPath.maxBytes := by
  intro ns hns
  rcases h.listed ns hns with hold | hnew
  · exact hlisted ns hold
  · exact hnew

end Storage

end ResumableUpload
