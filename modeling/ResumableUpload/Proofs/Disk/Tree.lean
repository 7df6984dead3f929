import ResumableUpload.Proofs.Disk.Delivering
import Mathlib.Data.List.Induction

/-
  Tree — what operations change in the tree below a base

  What lies below the base of a storage lies in directories: they are made
  before a file is, and nothing takes them away again. An operation for a file
  changes the tree in two places only. It makes directories on the way to the
  file, where nothing was; and it makes, fills or deletes the file itself.

  What is held:
    1. `Storage.Grounded` — a tree below the base of a storage.
    2. `Storage.Tends` — nothing changed off the way to a file, and on the way
       directories came.
    3. `Storage.Paves` — and the file itself is what it was.
    4. `Delivery.Bound`, `Step.Bound` — a delivery that has no other file open.

  What is proved:
    1. `grounded_set`, `grounded_erase` — what comes or goes leaves a tree.
    2. `paves_makeAll`, `paves_chain`, `paves_makeWay`, `paves_makeSome`,
       `tends_openFile`, `tends_place`, `tends_delete` — what each operation
       changes.
    3. `Bound.advance`, `Bound.tends_fail` — so does every operation of a
       delivery, and one that fails.
-/

namespace ResumableUpload

/-- The base of a storage is a directory, and what lies below it is a tree without links. -/
structure Storage.Grounded (s : Storage) (d : Disk) (base : Location) : Prop
    extends s.Rooted d base where
  top : d.get? base = some .directory
  /-- What lies below the base lies in a directory. -/
  nested : ∀ ns x e, d.get? (base ++ ns ++ [x]) = some e → d.get? (base ++ ns) = some .directory

/-- Nothing below the base changed off the way to the file that `names` stand for, and on the way
directories came where nothing was. -/
structure Storage.Tends (s : Storage) (base names : Location) (d d' : Disk) : Prop where
  grounded : s.Grounded d' base
  steady : Disk.Steady d d'
  away : ∀ ns, ¬ ns <+: names → d'.get? (base ++ ns) = d.get? (base ++ ns)
  way : ∀ ns, ns <+: names → ns ≠ names → d'.get? (base ++ ns) = d.get? (base ++ ns) ∨
    (d.get? (base ++ ns) = none ∧ d'.get? (base ++ ns) = some .directory)

/-- And the file itself is what it was. -/
structure Storage.Paves (s : Storage) (base names : Location) (d d' : Disk) : Prop
    extends s.Tends base names d d' where
  file : d'.get? (base ++ names) = d.get? (base ++ names)

theorem Disk.directory_of_nested {d : Disk} {dir rest : Location} {e : Entry}
    (hnested : ∀ ns x e, d.get? (dir ++ ns ++ [x]) = some e → d.get? (dir ++ ns) = some .directory)
    (hrest : rest ≠ []) (hthere : d.get? (dir ++ rest) = some e) : d.get? dir = some .directory := by
  induction rest using List.reverseRecOn generalizing e with
  | nil => exact absurd rfl hrest
  | append_singleton rest x ih =>
    rw [← List.append_assoc] at hthere
    have hin := hnested rest x e hthere
    by_cases hmore : rest = []
    · rwa [hmore, List.append_nil] at hin
    · exact ih hmore hin

namespace Storage

variable {s : Storage} {d d' d'' : Disk} {base names ns : Location} {x : String} {e : Entry}
  {path : String}

/-! ## Trees -/

theorem Grounded.directory_of_prefix (h : s.Grounded d base) {ms : Location} (hpre : ms <+: ns)
    (hne : ms ≠ ns) (he : d.get? (base ++ ns) = some e) : d.get? (base ++ ms) = some .directory := by
  obtain ⟨rest, rfl⟩ := hpre
  have hrest : rest ≠ [] := by
    rintro rfl
    exact hne (List.append_nil ms).symm
  rw [← List.append_assoc] at he
  refine Disk.directory_of_nested (fun ns x e hx => ?_) hrest he
  rw [List.append_assoc base] at hx ⊢
  exact h.nested (ms ++ ns) x e hx

theorem Grounded.directory_of_file (h : s.Grounded d base) {serial : Nat} {content : Content}
    (hfile : d.get? (base ++ names) = some (.file serial content)) :
    ∃ ns x, names = ns ++ [x] ∧ d.get? (base ++ ns) = some .directory := by
  have hsome : names ≠ [] := by
    rintro rfl
    rw [List.append_nil, h.top] at hfile
    cases hfile
  obtain ⟨ns, x, rfl⟩ := (List.eq_nil_or_concat names).resolve_left hsome
  rw [List.concat_eq_append] at hfile ⊢
  exact ⟨ns, x, rfl, h.directory_of_prefix (List.prefix_append ns [x]) (by simp) hfile⟩

/-- What comes into a directory of a tree, or in the place of a file, leaves a tree. -/
theorem grounded_set (h : s.Grounded d base) (hin : d.get? (base ++ ns) = some .directory)
    (hold : ∀ y, d.get? (base ++ ns ++ [x]) = some y → ∃ serial content, y = .file serial content)
    (hnew : e.isLink = false) : s.Grounded (d.set (base ++ ns ++ [x]) e) base := by
  have hloc : base ++ ns ++ [x] ≠ [] := by simp
  have hsteady : Disk.Steady d (d.set (base ++ ns ++ [x]) e) := Disk.steady_set hloc hold hnew
  refine ⟨h.toRooted.steady hsteady, hsteady.directories _ h.top, ?_⟩
  intro ms y z hz
  rw [Disk.get?_set d hloc] at hz
  split at hz
  · rename_i heq
    obtain ⟨hms, -⟩ := List.append_inj' heq rfl
    rw [hms]
    exact hsteady.directories _ hin
  · exact hsteady.directories _ (h.nested ms y z hz)

/-- A file that goes leaves a tree. -/
theorem grounded_erase (h : s.Grounded d base) {serial : Nat} {content : Content}
    (hfile : d.get? (base ++ ns) = some (.file serial content)) :
    s.Grounded (d.erase (base ++ ns)) base := by
  have hsteady := Disk.steady_erase hfile
  refine ⟨h.toRooted.steady hsteady, hsteady.directories _ h.top, ?_⟩
  intro ms y z hz
  rw [Disk.get?_erase d (Disk.ne_nil_of_get? hfile)] at hz
  split at hz
  · cases hz
  · exact hsteady.directories _ (h.nested ms y z hz)

theorem Grounded.congr (h : s.Grounded d base) (hentries : d'.entries = d.entries) :
    s.Grounded d' base := by
  obtain ⟨entries, nextSerial⟩ := d
  obtain ⟨entries', nextSerial'⟩ := d'
  obtain rfl : entries' = entries := hentries
  have hsteady : Disk.Steady ⟨entries', nextSerial⟩ ⟨entries', nextSerial'⟩ :=
    ⟨fun _ h => h, fun _ _ => Iff.rfl⟩
  exact ⟨h.toRooted.steady hsteady, h.top, h.nested⟩

/-! ## What an operation changes -/

namespace Tends

theorem refl (h : s.Grounded d base) (names : Location) : s.Tends base names d d :=
  ⟨h, .refl d, fun _ _ => rfl, fun _ _ _ => .inl rfl⟩

theorem trans (h : s.Tends base names d d') (h' : s.Tends base names d' d'') :
    s.Tends base names d d'' where
  grounded := h'.grounded
  steady := h.steady.trans h'.steady
  away := fun ns hns => (h'.away ns hns).trans (h.away ns hns)
  way := by
    intro ns hpre hne
    rcases h'.way ns hpre hne with hsame | ⟨hnone, hdir⟩
    · rw [hsame]
      exact h.way ns hpre hne
    · rcases h.way ns hpre hne with hsame | ⟨-, hdir'⟩
      · exact .inr ⟨hsame ▸ hnone, hdir⟩
      · rw [hnone] at hdir'
        cases hdir'

theorem congr (h : s.Tends base names d d') (hentries : d''.entries = d'.entries) :
    s.Tends base names d d'' := by
  have hgrounded := h.grounded.congr hentries
  obtain ⟨entries, nextSerial⟩ := d'
  obtain ⟨entries', nextSerial'⟩ := d''
  obtain rfl : entries' = entries := hentries
  exact ⟨hgrounded, ⟨h.steady.directories, h.steady.links⟩, h.away, h.way⟩

end Tends

theorem Tends.contentOf?_eq (h : s.Tends base names d d') (hne : ns ≠ names) :
    d'.contentOf? (base ++ ns) = d.contentOf? (base ++ ns) := by
  unfold Disk.contentOf?
  by_cases hpre : ns <+: names
  · rcases h.way ns hpre hne with hsame | ⟨hnone, hdir⟩
    · rw [hsame]
    · rw [hnone, hdir]
  · rw [h.away ns hpre]

theorem Paves.contentOf?_eq (h : s.Paves base names d d') (ns : Location) :
    d'.contentOf? (base ++ ns) = d.contentOf? (base ++ ns) := by
  by_cases hne : ns = names
  · rw [Disk.contentOf?, Disk.contentOf?, hne, h.file]
  · exact h.toTends.contentOf?_eq hne

theorem Paves.refl (h : s.Grounded d base) (names : Location) : s.Paves base names d d :=
  ⟨.refl h names, rfl⟩

theorem Paves.trans (h : s.Paves base names d d') (h' : s.Paves base names d' d'') :
    s.Paves base names d d'' :=
  ⟨h.toTends.trans h'.toTends, h'.file.trans h.file⟩

/-- A directory that comes on the way to a file. -/
theorem paves_directory (h : s.Grounded d base) (hin : d.get? (base ++ ns) = some .directory)
    (hfree : d.get? (base ++ ns ++ [x]) = none) (hpre : ns ++ [x] <+: names)
    (hne : ns ++ [x] ≠ names) : s.Paves base names d (d.set (base ++ ns ++ [x]) .directory) := by
  have hloc : base ++ ns ++ [x] ≠ [] := by simp
  have hnone : ∀ y, d.get? (base ++ ns ++ [x]) = some y →
      ∃ serial content, y = .file serial content := by
    intro y hy
    rw [hfree] at hy
    cases hy
  have hother : ∀ ms, ms ≠ ns ++ [x] →
      (d.set (base ++ ns ++ [x]) .directory).get? (base ++ ms) = d.get? (base ++ ms) := by
    intro ms hms
    rw [Disk.get?_set d hloc, if_neg]
    intro heq
    rw [List.append_assoc] at heq
    exact hms (List.append_cancel_left heq)
  refine ⟨⟨grounded_set h hin hnone rfl, Disk.steady_set hloc hnone rfl, ?_, ?_⟩, ?_⟩
  · intro ms hms
    apply hother
    rintro rfl
    exact hms hpre
  · intro ms _ _
    rw [Disk.get?_set d hloc]
    split
    · rename_i heq
      exact .inr ⟨heq ▸ hfree, rfl⟩
    · exact .inl rfl
  · exact hother names (Ne.symm hne)

theorem tends_file (h : s.Grounded d base) (hin : d.get? (base ++ ns) = some .directory)
    (hold : ∀ y, d.get? (base ++ ns ++ [x]) = some y → ∃ serial content, y = .file serial content)
    (hnew : e.isLink = false) : s.Tends base (ns ++ [x]) d (d.set (base ++ ns ++ [x]) e) := by
  have hloc : base ++ ns ++ [x] ≠ [] := by simp
  have hother : ∀ ms, ms ≠ ns ++ [x] →
      (d.set (base ++ ns ++ [x]) e).get? (base ++ ms) = d.get? (base ++ ms) := by
    intro ms hms
    rw [Disk.get?_set d hloc, if_neg]
    intro heq
    rw [List.append_assoc] at heq
    exact hms (List.append_cancel_left heq)
  refine ⟨grounded_set h hin hold hnew, Disk.steady_set hloc hold hnew, ?_, ?_⟩
  · intro ms hms
    apply hother
    rintro rfl
    exact hms (List.prefix_refl _)
  · exact fun ms _ hne => .inl (hother ms hne)

/-! ## The directories on the way -/

theorem way_parent {dir : Location} (hway : d.Way dir (ns ++ [x]))
    (hdir : d.get? dir = some .directory) : d.get? (dir ++ ns) = some .directory := by
  induction ns generalizing dir with
  | nil => rwa [List.append_nil]
  | cons y ns ih =>
    have hrest := ih hway.2.2 (hway.2.1 (by simp))
    simpa using hrest

theorem paves_makeDirectory (h : s.Grounded d base) (hpre : ns <+: names) (hne : ns ≠ names)
    (hsome : ns ≠ []) (hnames : ∀ y ∈ names, IsName y)
    (hmade : d.makeDirectory (s.filePath ns) = .ok d') : s.Paves base names d d' := by
  have hns : ∀ y ∈ ns, IsName y := fun y hy => hnames y (hpre.subset hy)
  obtain ⟨hyes, hno⟩ := h.locateName hns hsome
  have hclear : s.Clear d base ns := by
    by_contra hnot
    obtain ⟨cause, hcause⟩ := hno hnot
    simp only [Disk.makeDirectory, hcause] at hmade
    cases hmade
  obtain ⟨hfree, -, rfl⟩ := h.toRooted.makeDirectory hns hsome hmade
  obtain ⟨ms, y, rfl⟩ := (List.eq_nil_or_concat ns).resolve_left hsome
  rw [List.concat_eq_append] at hpre hne hclear hfree ⊢
  rw [← List.append_assoc] at hfree ⊢
  exact paves_directory h (way_parent hclear.way h.top) hfree hpre hne

/-- A path leads through directories that are there, and through names on the way to a file. -/
def OnWay (s : Storage) (names : Location) (d : Disk) (p : OsPath) : Prop :=
  d.isDirectory p = true ∨ ∃ ns, p = s.filePath ns ∧ ns ≠ [] ∧ ns <+: names ∧ ns ≠ names

theorem isDirectory_steady (h : Disk.Steady d d') {p : OsPath} (hp : d.isDirectory p = true) :
    d'.isDirectory p = true := by
  rw [Disk.isDirectory_iff] at hp ⊢
  obtain ⟨hcheck, loc, hwalk⟩ := hp
  exact ⟨hcheck, loc, Disk.walk_steady h hwalk⟩

theorem OnWay.steady {p : OsPath} (h : s.OnWay names d p) (hsteady : Disk.Steady d d') :
    s.OnWay names d' p := h.imp_left (isDirectory_steady hsteady)

/-- To make the directories on the way paves it. -/
theorem paves_makeAll {ps : List OsPath} (h : s.Grounded d base) (hnames : ∀ y ∈ names, IsName y)
    (hps : ∀ p ∈ ps, s.OnWay names d p) : s.Paves base names d (d.makeAll ps).1 := by
  refine Disk.makeAll_keeps ?_ (Paves.refl h names)
  intro p hp e e' hpaves hmade
  rcases (hps p hp).steady hpaves.steady with hdir | ⟨ns, rfl, hsome, hpre, hne⟩
  · rw [Disk.makeDirectory_of_isDirectory hdir] at hmade
    cases hmade
  · exact hpaves.trans (paves_makeDirectory hpaves.grounded hpre hne hsome hnames hmade)

/-- The paths of the directories that names lead through, the longest first. -/
def chain (s : Storage) (ns : Location) : List OsPath :=
  (List.range ns.length).reverse.map fun k => s.filePath (ns.take (k + 1))

/-- The paths of the directories that the base lies in, and of the base, the longest first. -/
def stems (s : Storage) : List OsPath :=
  ((List.range s.basePath.stem.length).reverse.filter fun k =>
    (s.basePath.stem[k]?).any OsPath.leads).map fun k => ⟨s.basePath.stem.take (k + 1)⟩

theorem chain_concat (s : Storage) (ns : Location) (x : String) :
    s.chain (ns ++ [x]) = s.filePath (ns ++ [x]) :: s.chain ns := by
  have hrest : ∀ k ∈ (List.range ns.length).reverse,
      s.filePath ((ns ++ [x]).take (k + 1)) = s.filePath (ns.take (k + 1)) := by
    intro k hk
    have hlt : k < ns.length := List.mem_range.mp (List.mem_reverse.mp hk)
    rw [List.take_append_of_le_length hlt]
  unfold chain
  rw [List.length_append, List.length_singleton, List.range_succ, List.reverse_append,
    List.map_append, List.map_congr_left hrest]
  simp [List.take_of_length_le]

theorem Rooted.isDirectory_stems (h : s.Rooted d base) {p : OsPath} (hp : p ∈ s.stems) :
    d.isDirectory p = true := by
  obtain ⟨k, hk, rfl⟩ := List.mem_map.mp hp
  exact h.isDirectory_stem (List.mem_filter.mp hk).2

/-- The paths that the path of a file leads through. -/
theorem above_filePath (s : Storage) (hnames : ∀ y ∈ ns ++ [x], IsName y) :
    (s.filePath (ns ++ [x])).above = s.chain ns ++ s.stems := by
  have hlength : (s.basePath.stem ++ (ns ++ [x])).length - 1 =
      s.basePath.stem.length + ns.length := by
    simp only [List.length_append, List.length_singleton]
    omega
  have hleads : ∀ k ∈ (List.range ns.length).map (s.basePath.stem.length + ·),
      ((s.basePath.stem ++ (ns ++ [x]))[k]?).any OsPath.leads = true := by
    intro k hk
    obtain ⟨i, hi, rfl⟩ := List.mem_map.mp hk
    have hlt : i < ns.length := List.mem_range.mp hi
    have hget : (s.basePath.stem ++ (ns ++ [x]))[s.basePath.stem.length + i]? = some ns[i] := by
      rw [List.getElem?_append_right (Nat.le_add_right _ _), Nat.add_sub_cancel_left,
        List.getElem?_append_left hlt, List.getElem?_eq_getElem hlt]
    have hname := hnames ns[i] (List.mem_append_left _ (List.getElem_mem hlt))
    rw [hget]
    simp [OsPath.leads, hname.nonempty, hname.notHere]
  have hstems : ∀ k ∈ List.range s.basePath.stem.length,
      (s.basePath.stem ++ (ns ++ [x]))[k]? = s.basePath.stem[k]? ∧
        (s.basePath.stem ++ (ns ++ [x])).take (k + 1) = s.basePath.stem.take (k + 1) := by
    intro k hk
    have hlt : k < s.basePath.stem.length := List.mem_range.mp hk
    exact ⟨List.getElem?_append_left hlt, List.take_append_of_le_length hlt⟩
  unfold OsPath.above
  rw [filePath, OsPath.join_eq]
  dsimp only
  rw [leading_append _ hnames (by simp), hlength, List.range_add, List.reverse_append,
    List.filter_append, List.map_append]
  congr 1
  · rw [← List.map_reverse, List.filter_eq_self.mpr, List.map_map, chain]
    · apply List.map_congr_left
      intro k hk
      have hlt : k < ns.length := List.mem_range.mp (List.mem_reverse.mp hk)
      have htake : (s.basePath.stem ++ (ns ++ [x])).take (s.basePath.stem.length + k + 1) =
          s.basePath.stem ++ ns.take (k + 1) := by
        rw [Nat.add_assoc, List.take_length_add_append, List.take_append_of_le_length hlt]
      exact congrArg OsPath.mk htake
    · intro k hk
      apply hleads
      rw [List.map_reverse] at hk
      exact List.mem_reverse.mp hk
  · have hfilter : ∀ k ∈ (List.range s.basePath.stem.length).reverse,
        ((s.basePath.stem ++ (ns ++ [x]))[k]?).any OsPath.leads =
          (s.basePath.stem[k]?).any OsPath.leads := by
      intro k hk
      rw [(hstems k (List.mem_reverse.mp hk)).1]
    rw [List.filter_congr hfilter]
    apply List.map_congr_left
    intro k hk
    rw [(hstems k (List.mem_reverse.mp (List.mem_filter.mp hk).1)).2]

theorem Rooted.onWay_above (h : s.Rooted d base) (hnames : ∀ y ∈ names, IsName y)
    (hsome : names ≠ []) {p : OsPath} (hp : p ∈ (s.filePath names).above) : s.OnWay names d p := by
  obtain ⟨ns, x, rfl⟩ := (List.eq_nil_or_concat names).resolve_left hsome
  rw [List.concat_eq_append] at hnames hp ⊢
  rw [above_filePath s hnames] at hp
  rcases List.mem_append.mp hp with hp | hp
  · obtain ⟨k, hk, rfl⟩ := List.mem_map.mp hp
    have hlt : k < ns.length := List.mem_range.mp (List.mem_reverse.mp hk)
    refine .inr ⟨ns.take (k + 1), rfl, ?_, (List.take_prefix _ _).trans (List.prefix_append _ _), ?_⟩
    · intro hnil
      have hlength := congrArg List.length hnil
      rw [List.length_take, List.length_nil] at hlength
      omega
    · intro heq
      have hlength := congrArg List.length heq
      rw [List.length_take, List.length_append, List.length_singleton] at hlength
      omega
  · exact .inl (h.isDirectory_stems hp)

/-- The directories above a file, made as far as they can be, pave the way to it. -/
theorem paves_chain (h : s.Grounded d base) (hnames : ∀ y ∈ ns ++ [x], IsName y) :
    s.Paves base (ns ++ [x]) d (d.makeAll (s.chain ns ++ s.stems)).1 := by
  apply paves_makeAll h hnames
  intro p hp
  apply h.onWay_above hnames (by simp)
  rwa [above_filePath s hnames]

/-! ## What a storage does -/

theorem paves_makeWay (h : s.Grounded d base) (hpath : resolve path = .ok names) :
    s.Paves base names d (s.makeWay d path).1 := by
  obtain ⟨hsome, hnames⟩ := resolve_eq_ok hpath
  have hmade : s.Paves base names d (d.makeParents (s.filePath names)).1 :=
    paves_makeAll h hnames fun p hp => h.onWay_above hnames hsome hp
  unfold makeWay
  rw [hpath]
  dsimp only
  split
  · rename_i d' cause hmake
    rw [hmake] at hmade
    exact hmade
  · rename_i d' hmake
    rw [hmake] at hmade
    exact hmade

theorem paves_makeSome (h : s.Grounded d base) (hpath : resolve path = .ok names) (count : Nat) :
    s.Paves base names d (s.makeSome d path count) := by
  obtain ⟨hsome, hnames⟩ := resolve_eq_ok hpath
  simp only [makeSome, hpath]
  exact paves_makeAll h hnames fun p hp => h.onWay_above hnames hsome (List.mem_of_mem_drop hp)

/-- A file that is opened lies behind its names; where none is opened, nothing changed. -/
theorem tends_openFile (h : s.Grounded d base) (hpath : resolve path = .ok names) :
    s.Tends base names d (s.openFile d path).1 ∧
      (∀ file, (s.openFile d path).2 = .ok file → file.loc = base ++ names ∧
        ∃ content, (s.openFile d path).1.get? (base ++ names) = some (.file file.serial content)) ∧
      ∀ err, (s.openFile d path).2 = .error err → (s.openFile d path).1 = d := by
  obtain ⟨hsome, -⟩ := resolve_eq_ok hpath
  have hloc : base ++ names ≠ [] := by simp [hsome]
  obtain ⟨err, hopen⟩ | ⟨-, serial, content, hthere, hopen⟩ | ⟨hclear, hfree, hopen⟩ :=
    h.openFile_cases hpath
  · rw [hopen]
    exact ⟨.refl h names, (fun _ h => by cases h), fun _ _ => rfl⟩
  · rw [hopen]
    refine ⟨.refl h names, fun file hfile => ?_, fun _ h => by cases h⟩
    cases hfile
    exact ⟨rfl, content, hthere⟩
  · rw [hopen]
    have htends : s.Tends base names d (d.set (base ++ names) (.file d.nextSerial .empty)) := by
      obtain ⟨ns, x, rfl⟩ := (List.eq_nil_or_concat names).resolve_left hsome
      rw [List.concat_eq_append] at hclear hfree ⊢
      rw [← List.append_assoc] at hfree ⊢
      refine tends_file h (way_parent hclear.way h.top) ?_ rfl
      intro y hy
      rw [hfree] at hy
      cases hy
    refine ⟨htends.congr rfl, fun file hfile => ?_, fun _ h => by cases h⟩
    cases hfile
    exact ⟨rfl, .empty, by rw [Disk.get?_addFile d hloc, if_pos rfl]⟩

/-- What is laid into a file changes that file, or nothing. -/
theorem tends_place (h : s.Grounded d base) {file : OpenFile} (hloc : file.loc = base ++ names)
    (position : Nat) (bytes : Bytes) : s.Tends base names d (d.place file position bytes) := by
  unfold Disk.place
  split
  · rename_i serial content hthere
    split
    · rw [hloc] at hthere ⊢
      obtain ⟨ns, x, rfl, hin⟩ := h.directory_of_file hthere
      rw [← List.append_assoc] at hthere ⊢
      refine tends_file h hin ?_ rfl
      intro y hy
      rw [hthere] at hy
      cases hy
      exact ⟨serial, content, rfl⟩
    · exact .refl h names
  · exact .refl h names

theorem grounded_place (h : s.Grounded d base) (file : OpenFile) (position : Nat) (bytes : Bytes) :
    s.Grounded (d.place file position bytes) base := by
  unfold Disk.place
  split
  · rename_i serial content hthere
    split
    · have hloc := Disk.ne_nil_of_get? hthere
      have hsteady : Disk.Steady d
          (d.set file.loc (.file serial (content.overlay position bytes))) := by
        refine Disk.steady_set hloc (fun y hy => ?_) rfl
        rw [hthere] at hy
        cases hy
        exact ⟨serial, content, rfl⟩
      refine ⟨h.toRooted.steady hsteady, hsteady.directories _ h.top, ?_⟩
      intro ns x e he
      rw [Disk.get?_set d hloc] at he
      split at he
      · rename_i heq
        -- what lay there before was a file, in a directory
        exact hsteady.directories _ (h.nested ns x _ (heq ▸ hthere))
      · exact hsteady.directories _ (h.nested ns x e he)
    · exact h
  · exact h

theorem delete_cases (h : s.Grounded d base) (hpath : resolve path = .ok names) :
    ((s.delete d path).2 = .ok true ∧ (s.delete d path).1 = d.erase (base ++ names) ∧
      ∃ serial content, d.get? (base ++ names) = some (.file serial content)) ∨
    ((s.delete d path).2 ≠ .ok true ∧ (s.delete d path).1 = d) := by
  obtain ⟨hsome, hnames⟩ := resolve_eq_ok hpath
  obtain ⟨hyes, hno⟩ := h.locate hnames hsome false
  unfold delete Disk.remove
  simp only [hpath]
  by_cases hclear : s.Clear d base names
  · rw [hyes hclear, Disk.lies]
    cases hthere : d.get? (base ++ names) with
    | none => exact .inr ⟨(fun h => by cases h), rfl⟩
    | some e =>
      cases e with
      | file serial content => exact .inl ⟨rfl, rfl, serial, content, rfl⟩
      | directory => exact .inr ⟨(fun h => by cases h), rfl⟩
      | link target => exact absurd hthere (h.plain names target)
  · obtain ⟨cause, hcause⟩ := hno hclear
    rw [hcause]
    cases cause <;> exact .inr ⟨(fun h => by cases h), rfl⟩

theorem tends_delete (h : s.Grounded d base) (hpath : resolve path = .ok names) :
    s.Tends base names d (s.delete d path).1 := by
  obtain ⟨-, herased, serial, content, hfile⟩ | ⟨-, hsame⟩ := delete_cases h hpath
  · rw [herased]
    have hgone : ∀ ms, ms ≠ names →
        (d.erase (base ++ names)).get? (base ++ ms) = d.get? (base ++ ms) := by
      intro ms hms
      rw [Disk.get?_erase d (Disk.ne_nil_of_get? hfile), if_neg]
      exact fun heq => hms (List.append_cancel_left heq)
    refine ⟨grounded_erase h hfile, Disk.steady_erase hfile, ?_, fun ms _ hne => .inl (hgone ms hne)⟩
    intro ms hms
    apply hgone
    rintro rfl
    exact hms (List.prefix_refl _)
  · rw [hsame]
    exact .refl h names

end Storage

namespace Delivery

variable {s : Storage} {d : Disk} {base names : Location} {path : String} {f : Fragment}
  {x : Delivery}

/-- What a delivery has open lies behind the names. -/
def Bound (base names : Location) (x : Delivery) : Prop :=
  ∀ w, x.writer? = some w → w.file.loc = base ++ names

theorem bound_of_loc {w : FileWriter} (h : w.file.loc = base ++ names) (hw : x.writer? = some w) :
    x.Bound base names := by
  intro v hv
  rw [hw] at hv
  rw [← Option.some.inj hv]
  exact h

theorem bound_start {writer : Option FileWriter} (h : ∀ w, writer = some w → w.file.loc = base ++ names) :
    (start writer).Bound base names := by
  cases writer with
  | none =>
    intro v hv
    cases hv
  | some w => exact bound_of_loc (h w rfl) rfl

/-- What is open after an operation lies behind the names. -/
def Step.Bound (base names : Location) : Step → Prop
  | .onward next => next.Bound base names
  | .ended (.ok w) => w.file.loc = base ++ names
  | .ended (.error _) => True

/-- An operation of a delivery tends the file of its path, and has nothing else open. -/
theorem Bound.advance (hbound : x.Bound base names) (h : s.Grounded d base)
    (hpath : Storage.resolve path = .ok names) (f : Fragment) :
    s.Tends base names d (x.advance s path f d).1 ∧
      (x.advance s path f d).2.Bound base names := by
  cases x with
  | directories =>
    have hpaves := Storage.paves_makeWay h hpath
    rcases hmake : s.makeWay d path with ⟨d', err | u⟩
    · rw [hmake] at hpaves
      simp only [Delivery.advance, hmake]
      exact ⟨hpaves.toTends, trivial⟩
    · rw [hmake] at hpaves
      simp only [Delivery.advance, hmake]
      exact ⟨hpaves.toTends, fun w hw => by cases hw⟩
  | opening =>
    obtain ⟨htends, hopen, -⟩ := Storage.tends_openFile h hpath
    rcases hfile : s.openFile d path with ⟨d', err | file⟩
    · rw [hfile] at htends
      simp only [Delivery.advance, hfile]
      exact ⟨htends, trivial⟩
    · rw [hfile] at htends hopen
      simp only [Delivery.advance, hfile]
      exact ⟨htends, bound_of_loc (hopen file rfl).1 rfl⟩
  | seeking w =>
    have hloc := hbound w rfl
    simp only [Delivery.advance]
    split
    · exact ⟨.refl h names, trivial⟩
    · split
      · exact ⟨.refl h names, hloc⟩
      · exact ⟨.refl h names, bound_of_loc hloc rfl⟩
  | writing w done =>
    have hloc := hbound w rfl
    have htends := Storage.tends_place h hloc (f.position + done)
      (f.bytes.extract done (done + FileWriter.burst))
    simp only [Delivery.advance]
    split
    · exact ⟨htends, hloc⟩
    · exact ⟨htends, bound_of_loc hloc rfl⟩

/-- An operation that fails tends the file as one that goes its way does. -/
theorem Bound.tends_fail (hbound : x.Bound base names) (h : s.Grounded d base)
    (hpath : Storage.resolve path = .ok names) (f : Fragment) (count : Nat) :
    s.Tends base names d (x.fail s path f count d) := by
  cases x with
  | directories => exact (Storage.paves_makeSome h hpath count).toTends
  | opening => exact .refl h names
  | seeking w => exact .refl h names
  | writing w done => exact Storage.tends_place h (hbound w rfl) _ _

end Delivery

theorem emptyBase_grounded : (Storage.mk "up").Grounded emptyBase ["up"] where
  toRooted := emptyBase_rooted
  top := rfl
  nested := by
    intro ns x e he
    rw [List.append_assoc, emptyBase_free (by simp)] at he
    cases he

end ResumableUpload
