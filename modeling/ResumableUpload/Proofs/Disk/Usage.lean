import ResumableUpload.Proofs.Disk.Below
import Mathlib.Algebra.Ring.Nat

/-
  Usage — how the space below the base of a storage is used

  The bytes in use are the lengths of the files below the base, so they move as
  the lengths do: what one file gains or loses, the whole does. Each operation
  that a storage asks of the disk touches one file at most, and what comes
  beside it are directories, which take no space.

  What is held:
    1. `sizeAt` — the length of what lies at a location.
    2. `Storage.Touches` — no file but one was touched; `Storage.Fills` — and
       that one did not shrink.

  What is proved:
    1. `usedBelow_set`, `usedBelow_erase` — how the bytes in use move.
    2. `fills_directory`, `fills_file` — what is touched by a directory that
       comes, and by a file that comes or is written over.
-/

namespace ResumableUpload

namespace Disk

variable {d : Disk} {base loc : Location}

/-- The length of the file at a location; nothing, directories and links have none. -/
def sizeAt (d : Disk) (loc : Location) : Nat := (d.get? loc).elim 0 Entry.fileSize

theorem sizeAt_set (hloc : loc ≠ []) (q : Location) (e : Entry) :
    (d.set loc e).sizeAt q = if q = loc then e.fileSize else d.sizeAt q := by
  unfold sizeAt
  rw [get?_set d hloc]
  split <;> rfl

theorem sizeAt_erase (hloc : loc ≠ []) (q : Location) :
    (d.erase loc).sizeAt q = if q = loc then 0 else d.sizeAt q := by
  unfold sizeAt
  rw [get?_erase d hloc]
  split <;> rfl

/-- The lengths of the files of a table that lie below a location. -/
def usedIn (base : Location) (es : List (Location × Entry)) : Nat :=
  ((es.filter fun e => base.isPrefixOf e.1).map fun e => e.2.fileSize).sum

theorem usedIn_cons (base l : Location) (x : Entry) (es : List (Location × Entry)) :
    usedIn base ((l, x) :: es) = (if base <+: l then x.fileSize else 0) + usedIn base es := by
  unfold usedIn
  by_cases h : base <+: l <;> simp [h]

theorem usedIn_setIn (hbelow : base <+: loc) (e : Entry) (es : List (Location × Entry)) :
    usedIn base (setIn loc e es) + (es.lookup loc).elim 0 Entry.fileSize =
      usedIn base es + e.fileSize := by
  induction es with
  | nil =>
    rw [setIn, usedIn_cons, if_pos hbelow]
    exact Nat.add_comm _ _
  | cons x rest ih =>
    obtain ⟨l, x⟩ := x
    unfold setIn
    by_cases hl : l = loc
    · subst hl
      simp only [if_true, List.lookup_cons_self, usedIn_cons, if_pos hbelow, Option.elim_some]
      omega
    · have hq : (loc == l) = false := by simp [Ne.symm hl]
      simp only [hl, if_false, List.lookup_cons, hq, usedIn_cons]
      omega

theorem usedIn_filter (hbelow : base <+: loc) (es : List (Location × Entry)) :
    usedIn base (es.filter fun e => e.1 ≠ loc) + (es.lookup loc).elim 0 Entry.fileSize ≤
      usedIn base es := by
  induction es with
  | nil => exact Nat.le_refl _
  | cons x rest ih =>
    obtain ⟨l, x⟩ := x
    by_cases hl : l = loc
    · subst hl
      have hdrop : ((l, x) :: rest).filter (fun e => e.1 ≠ l) = rest.filter fun e => e.1 ≠ l := by simp
      rw [hdrop, List.lookup_cons_self, Option.elim_some, usedIn_cons, if_pos hbelow]
      omega
    · have hkeep : ((l, x) :: rest).filter (fun e => e.1 ≠ loc) =
          (l, x) :: rest.filter fun e => e.1 ≠ loc := by simp [hl]
      have hq : (loc == l) = false := by simp [Ne.symm hl]
      rw [hkeep, usedIn_cons, usedIn_cons, List.lookup_cons, hq]
      dsimp only
      omega

/-- The bytes in use move as the length of the entry that is put there. -/
theorem usedBelow_set (hloc : loc ≠ []) (hbelow : base <+: loc) (e : Entry) :
    (d.set loc e).usedBelow base + d.sizeAt loc = d.usedBelow base + e.fileSize := by
  have hsize : d.sizeAt loc = (d.entries.lookup loc).elim 0 Entry.fileSize := by
    rw [sizeAt, get?, if_neg hloc]
  rw [hsize]
  exact usedIn_setIn hbelow e d.entries

/-- What is erased takes no space any more. -/
theorem usedBelow_erase (hloc : loc ≠ []) (hbelow : base <+: loc) :
    (d.erase loc).usedBelow base + d.sizeAt loc ≤ d.usedBelow base := by
  have hsize : d.sizeAt loc = (d.entries.lookup loc).elim 0 Entry.fileSize := by
    rw [sizeAt, get?, if_neg hloc]
  rw [hsize]
  exact usedIn_filter hbelow d.entries

theorem mem_setIn {e : Entry} {x : Location × Entry} {es : List (Location × Entry)}
    (hx : x ∈ setIn loc e es) : x = (loc, e) ∨ x ∈ es := by
  induction es with
  | nil => exact .inl (List.mem_singleton.mp hx)
  | cons y rest ih =>
    unfold setIn at hx
    split at hx
    · rcases List.mem_cons.mp hx with rfl | hx
      · exact .inl rfl
      · exact .inr (List.mem_cons_of_mem _ hx)
    · rcases List.mem_cons.mp hx with rfl | hx
      · exact .inr List.mem_cons_self
      · exact (ih hx).imp id (List.mem_cons_of_mem _)

theorem mem_directoriesBelow {names : Location} : names ∈ d.directoriesBelow base ↔
    ∃ loc e, (loc, e) ∈ d.entries ∧ base <+: loc ∧ e.isDirectory = true ∧
      loc.drop base.length = names := by
  simp [directoriesBelow, and_assoc]

theorem directoriesBelow_set {e : Entry} {names : Location}
    (h : names ∈ (d.set loc e).directoriesBelow base) :
    names ∈ d.directoriesBelow base ∨
      (e.isDirectory = true ∧ base <+: loc ∧ loc.drop base.length = names) := by
  obtain ⟨l, x, hmem, hbelow, hdir, hnames⟩ := mem_directoriesBelow.mp h
  rcases mem_setIn hmem with heq | hmem
  · cases heq
    exact .inr ⟨hdir, hbelow, hnames⟩
  · exact .inl (mem_directoriesBelow.mpr ⟨l, x, hmem, hbelow, hdir, hnames⟩)

theorem directoriesBelow_erase {names : Location}
    (h : names ∈ (d.erase loc).directoriesBelow base) : names ∈ d.directoriesBelow base := by
  obtain ⟨l, x, hmem, hrest⟩ := mem_directoriesBelow.mp h
  exact mem_directoriesBelow.mpr ⟨l, x, (List.mem_filter.mp hmem).1, hrest⟩

theorem steady_set {e : Entry} (hloc : loc ≠ [])
    (hold : ∀ x, d.get? loc = some x → ∃ serial content, x = .file serial content)
    (hnew : e.isLink = false) : Steady d (d.set loc e) := by
  constructor
  · intro q hq
    rw [get?_set d hloc]
    split
    · rename_i heq
      obtain ⟨serial, content, hfile⟩ := hold .directory (heq ▸ hq)
      cases hfile
    · exact hq
  · intro q target
    rw [get?_set d hloc]
    split
    · rename_i heq
      constructor
      · intro h
        cases h
        cases hnew
      · intro h
        obtain ⟨serial, content, hfile⟩ := hold (.link target) (heq ▸ h)
        cases hfile
    · exact Iff.rfl

theorem steady_erase {serial : Nat} {content : Content}
    (hfile : d.get? loc = some (.file serial content)) : Steady d (d.erase loc) := by
  have hloc : loc ≠ [] := ne_nil_of_get? hfile
  constructor
  · intro q hq
    rw [get?_erase d hloc, if_neg]
    · exact hq
    · rintro rfl
      rw [hfile] at hq
      cases hq
  · intro q target
    rw [get?_erase d hloc]
    split
    · rename_i heq
      rw [heq, hfile]
      simp
    · exact Iff.rfl

end Disk

/-! ## What an operation touches -/

/-- No file below the base of a storage was touched but the one that `names` stand for. -/
structure Storage.Touches (s : Storage) (base names : Location) (d d' : Disk) : Prop where
  steady : Disk.Steady d d'
  others : ∀ ns, ns ≠ names → d'.sizeAt (base ++ ns) = d.sizeAt (base ++ ns)
  /-- The bytes in use lost what the file lost, at least, or gained what it gained. -/
  used : d'.usedBelow base + d.sizeAt (base ++ names) ≤ d.usedBelow base + d'.sizeAt (base ++ names)
  /-- The directories that came have paths that can be listed. -/
  listed : ∀ ns ∈ d'.directoriesBelow base,
    ns ∈ d.directoriesBelow base ∨ (s.filePath ns).bytes ≤ OsPath.maxBytes

/-- And nothing went; the file grew up to `limit` at most. -/
structure Storage.Fills (s : Storage) (base names : Location) (limit : Nat) (d d' : Disk) : Prop
    extends s.Touches base names d d' where
  grown : Disk.Grown d d'
  grows : d.sizeAt (base ++ names) ≤ d'.sizeAt (base ++ names)
  within : d'.sizeAt (base ++ names) ≤ max (d.sizeAt (base ++ names)) limit

namespace Storage

variable {s : Storage} {d d' d'' : Disk} {base names ns : Location} {limit : Nat}

namespace Fills

theorem refl (s : Storage) (base names : Location) (limit : Nat) (d : Disk) :
    s.Fills base names limit d d where
  steady := .refl d
  others := fun _ _ => rfl
  used := Nat.le_refl _
  listed := fun _ h => .inl h
  grown := .refl d
  grows := Nat.le_refl _
  within := Nat.le_max_left _ _

theorem trans (h : s.Fills base names limit d d') (h' : s.Fills base names limit d' d'') :
    s.Fills base names limit d d'' where
  steady := h.steady.trans h'.steady
  others := fun ns hns => (h'.others ns hns).trans (h.others ns hns)
  used := by
    have h1 := h.used
    have h2 := h'.used
    omega
  listed := by
    intro ns hns
    rcases h'.listed ns hns with hns | hlisted
    · exact h.listed ns hns
    · exact .inr hlisted
  grown := h.grown.trans h'.grown
  grows := Nat.le_trans h.grows h'.grows
  within := by
    have h1 := h.within
    have h2 := h'.within
    omega

theorem congr (h : s.Fills base names limit d d') (hentries : d''.entries = d'.entries) :
    s.Fills base names limit d d'' := by
  obtain ⟨entries, nextSerial⟩ := d'
  obtain ⟨entries', nextSerial'⟩ := d''
  obtain rfl : entries' = entries := hentries
  exact ⟨⟨⟨h.steady.directories, h.steady.links⟩, h.others, h.used, h.listed⟩, h.grown, h.grows,
    h.within⟩

end Fills

/-- A directory takes no space. -/
theorem fills_directory (hfree : d.get? (base ++ ns) = none)
    (hlisted : (s.filePath ns).bytes ≤ OsPath.maxBytes) :
    s.Fills base names limit d (d.set (base ++ ns) .directory) := by
  have hloc : base ++ ns ≠ [] := by
    intro h
    rw [h] at hfree
    cases hfree
  have hzero : d.sizeAt (base ++ ns) = 0 := by rw [Disk.sizeAt, hfree, Option.elim_none]
  have hsize : ∀ q, (d.set (base ++ ns) .directory).sizeAt q = d.sizeAt q := by
    intro q
    rw [Disk.sizeAt_set hloc]
    split
    · rename_i hq
      rw [hq, hzero]
      rfl
    · rfl
  have hused : (d.set (base ++ ns) .directory).usedBelow base = d.usedBelow base := by
    have h := Disk.usedBelow_set (d := d) hloc (List.prefix_append base ns) .directory
    rw [hzero] at h
    exact h
  refine ⟨⟨Disk.steady_set hloc ?_ rfl, fun q _ => hsize _, ?_, ?_⟩, Disk.grown_set hfree _, ?_, ?_⟩
  · intro x hx
    rw [hfree] at hx
    cases hx
  · exact Nat.le_of_eq (by rw [hused, hsize])
  · intro q hq
    rcases Disk.directoriesBelow_set hq with hq | ⟨-, -, rfl⟩
    · exact .inl hq
    · rw [List.drop_left]
      exact .inr hlisted
  · exact Nat.le_of_eq (hsize _).symm
  · rw [hsize]
    exact Nat.le_max_left _ _

/-- A file that is put where none was, or that is written over, takes the space of its content. -/
theorem fills_file {serial : Nat} {content : Content} (hloc : base ++ names ≠ [])
    (hold : d.get? (base ++ names) = none ∨ ∃ old, d.get? (base ++ names) = some (.file serial old))
    (hgrows : d.sizeAt (base ++ names) ≤ content.size)
    (hwithin : content.size ≤ max (d.sizeAt (base ++ names)) limit) :
    s.Fills base names limit d (d.set (base ++ names) (.file serial content)) := by
  have hsize : (d.set (base ++ names) (.file serial content)).sizeAt (base ++ names) =
      content.size := by
    rw [Disk.sizeAt_set hloc, if_pos rfl]
    rfl
  have hused := Disk.usedBelow_set (d := d) hloc (List.prefix_append base names)
    (.file serial content)
  refine ⟨⟨Disk.steady_set hloc ?_ rfl, ?_, ?_, ?_⟩, ?_, ?_, ?_⟩
  · intro x hx
    rcases hold with hnone | ⟨old, hfile⟩
    · rw [hnone] at hx
      cases hx
    · rw [hfile] at hx
      cases hx
      exact ⟨serial, old, rfl⟩
  · intro q hq
    rw [Disk.sizeAt_set hloc, if_neg]
    exact fun heq => hq (List.append_cancel_left heq)
  · rw [hsize]
    exact Nat.le_of_eq hused
  · intro q hq
    rcases Disk.directoriesBelow_set hq with hq | ⟨hdir, -, -⟩
    · exact .inl hq
    · cases hdir
  · rcases hold with hnone | ⟨old, hfile⟩
    · exact Disk.grown_set hnone _
    · intro q x hx
      rw [Disk.get?_set d hloc]
      split
      · rename_i hq
        rw [hq, hfile] at hx
        cases hx
        exact ⟨_, rfl, .file _ _ _⟩
      · exact ⟨x, hx, .refl x⟩
  · rw [hsize]
    exact hgrows
  · rw [hsize]
    exact hwithin

end Storage

end ResumableUpload
