import ResumableUpload.Proofs.Disk.Trail
import ResumableUpload.Words
import Mathlib.Algebra.BigOperators.Group.Finset.Basic
import Mathlib.Data.List.MinMax

/-
  Census — how the files below a directory are counted

  The space in use is the sum of the lengths of the files below a directory. In
  a tree it may be read off the table at once, as an exact number, or counted in
  words by a walk that lists one directory after the other and adds up what it
  finds (`Disk.countIn`): each file lies below one entry of the directory, and
  below one entry of that, down to itself. A directory is listed by its path, so
  both fail where a path is too long for the operating system; the walk comes to
  nothing where its sum is no word.

  What is held:
    1. `IsTree` — a table in which every location has one entry, in a directory.
    2. `filesUnder`, `total` — the files below a directory, at any depth, and
       their lengths.
    3. `Listed`, `Comes` — what a count comes to.

  What is proved:
    1. `isTree_empty`, `IsTree.set`, `IsTree.erase` — what leaves a tree.
    2. `IsTree.usedBelow_eq`, `IsTree.total_erase` — the sum over the files, and
       what a deletion takes from it.
    3. `IsTree.sum_listing` — the files below a directory are those below what
       lies in it.
    4. `IsTree.comes_of_listing`, `IsTree.comes_countIn` — one directory of the
       walk, and, by induction on the depth, all of it.
    5. `IsTree.usedUnder_eq` — the sum read off the table; so
       `IsTree.usedUnder_eq_countIn` — the walk and the table agree.
-/

namespace ResumableUpload

namespace Disk

variable {d : Disk} {dir loc : Location} {e : Entry}

/-- The table is a tree: every location has one entry, and lies in a directory. -/
structure IsTree (d : Disk) : Prop where
  distinct : (d.entries.map Prod.fst).Nodup
  top : [] ∉ d.entries.map Prod.fst
  nested : ∀ loc x e, d.get? (loc ++ [x]) = some e → d.get? loc = some .directory

theorem lookup_of_mem {es : List (Location × Entry)} (h : (es.map Prod.fst).Nodup)
    (hmem : (loc, e) ∈ es) : es.lookup loc = some e := by
  induction es with
  | nil => cases hmem
  | cons x rest ih =>
    obtain ⟨l, y⟩ := x
    obtain ⟨hnot, hrest⟩ := List.nodup_cons.mp h
    rcases List.mem_cons.mp hmem with heq | hlater
    · cases heq
      exact List.lookup_cons_self
    · have hne : (loc == l) = false := by
        rw [beq_eq_false_iff_ne]
        rintro rfl
        exact hnot (List.mem_map.mpr ⟨(loc, e), hlater, rfl⟩)
      rw [List.lookup_cons, hne]
      exact ih hrest hlater

theorem IsTree.mem_entries (h : d.IsTree) : (loc, e) ∈ d.entries ↔ loc ≠ [] ∧ d.get? loc = some e := by
  constructor
  · intro hmem
    have hloc : loc ≠ [] := by
      rintro rfl
      exact h.top (List.mem_map_of_mem hmem)
    exact ⟨hloc, by rw [get?, if_neg hloc, lookup_of_mem h.distinct hmem]⟩
  · rintro ⟨hloc, hthere⟩
    rw [get?, if_neg hloc] at hthere
    obtain ⟨before, after, hentries, -⟩ := List.lookup_eq_some_iff.mp hthere
    rw [hentries]
    exact List.mem_append_right _ List.mem_cons_self

theorem isTree_empty : empty.IsTree where
  distinct := List.nodup_nil
  top := by simp [empty]
  nested := by
    intro loc x e he
    rw [get?, if_neg (by simp)] at he
    cases he

theorem map_fst_setIn (loc : Location) (e : Entry) (es : List (Location × Entry)) :
    (setIn loc e es).map Prod.fst =
      if loc ∈ es.map Prod.fst then es.map Prod.fst else es.map Prod.fst ++ [loc] := by
  induction es with
  | nil => rfl
  | cons x rest ih =>
    obtain ⟨l, y⟩ := x
    unfold setIn
    by_cases hl : l = loc
    · simp [hl]
    · rw [if_neg hl, List.map_cons, ih, List.map_cons]
      by_cases hmem : loc ∈ rest.map Prod.fst
      · rw [if_pos hmem, if_pos (List.mem_cons_of_mem l hmem)]
      · have hnot : loc ∉ l :: rest.map Prod.fst := by
          rw [List.mem_cons, not_or]
          exact ⟨fun heq => hl heq.symm, hmem⟩
        rw [if_neg hmem, if_neg hnot, List.cons_append]

/-- What comes into a directory, in the place of no other, leaves a tree. -/
theorem IsTree.set (h : d.IsTree) {x : String} (hin : d.get? dir = some .directory)
    (hold : (d.get? (dir ++ [x])).any Entry.isDirectory = false) (e : Entry) :
    (d.set (dir ++ [x]) e).IsTree := by
  have hloc : dir ++ [x] ≠ [] := by simp
  have hkeys := map_fst_setIn (dir ++ [x]) e d.entries
  refine ⟨?_, ?_, ?_⟩
  · show ((setIn (dir ++ [x]) e d.entries).map Prod.fst).Nodup
    rw [hkeys]
    split
    · exact h.distinct
    · rename_i hnew
      exact List.nodup_append.mpr ⟨h.distinct, List.nodup_singleton _, by
        rintro a ha b hb rfl
        exact hnew (List.mem_singleton.mp hb ▸ ha)⟩
  · show [] ∉ (setIn (dir ++ [x]) e d.entries).map Prod.fst
    rw [hkeys]
    split
    · exact h.top
    · rw [List.mem_append, List.mem_singleton, not_or]
      exact ⟨h.top, Ne.symm hloc⟩
  · intro loc y z hz
    have hparent : d.get? loc = some .directory := by
      rw [get?_set d hloc] at hz
      split at hz
      · rename_i heq
        obtain ⟨rfl, -⟩ := List.append_inj' heq rfl
        exact hin
      · exact h.nested loc y z hz
    rw [get?_set d hloc, if_neg]
    · exact hparent
    · rintro rfl
      rw [hparent] at hold
      cases hold

/-- What is no directory leaves a tree as it goes. -/
theorem IsTree.erase (h : d.IsTree) (hthere : d.get? loc = some e) (hleaf : e ≠ .directory) :
    (d.erase loc).IsTree := by
  have hloc : loc ≠ [] := by
    rintro rfl
    exact hleaf (Option.some.inj hthere).symm
  have hkeys : List.Sublist ((d.erase loc).entries.map Prod.fst) (d.entries.map Prod.fst) :=
    List.filter_sublist.map Prod.fst
  refine ⟨h.distinct.sublist hkeys, fun htop => h.top (hkeys.subset htop), ?_⟩
  intro q x y hy
  rw [get?_erase d hloc] at hy ⊢
  split at hy
  · cases hy
  · have hparent := h.nested q x y hy
    rw [if_neg]
    · exact hparent
    · rintro rfl
      rw [hthere] at hparent
      exact hleaf (Option.some.inj hparent)

/-! ## The files below a directory -/

/-- The locations of the files below a directory, at any depth. -/
def filesUnder (d : Disk) (dir : Location) : Finset Location :=
  (d.entries.map Prod.fst).toFinset.filter fun loc => dir <+: loc ∧ (d.contentOf? loc).isSome

/-- The lengths of all files below a directory, each counted once. -/
def total (d : Disk) (dir : Location) : Nat := ∑ loc ∈ d.filesUnder dir, d.sizeAt loc

theorem isSome_contentOf? : (d.contentOf? loc).isSome ↔ d.HoldsFile loc := by
  unfold contentOf? HoldsFile
  cases d.get? loc with
  | none => simp
  | some e => cases e <;> simp

theorem IsTree.mem_filesUnder (h : d.IsTree) :
    loc ∈ d.filesUnder dir ↔ dir <+: loc ∧ d.HoldsFile loc := by
  rw [filesUnder, Finset.mem_filter, List.mem_toFinset, isSome_contentOf?]
  refine ⟨And.right, fun hfile => ⟨?_, hfile⟩⟩
  obtain ⟨-, serial, content, hthere⟩ := hfile
  exact List.mem_map_of_mem (h.mem_entries.mpr ⟨ne_nil_of_get? hthere, hthere⟩)

theorem sizeAt_of_no_file (h : ¬ (d.contentOf? loc).isSome) : d.sizeAt loc = 0 := by
  rw [isSome_contentOf?] at h
  rw [sizeAt]
  cases hthere : d.get? loc with
  | none => rfl
  | some e =>
    cases e with
    | file serial content => exact absurd ⟨serial, content, hthere⟩ h
    | _ => rfl

/-- The bytes in use below a directory are the lengths of its files, each counted once. -/
theorem IsTree.usedBelow_eq (h : d.IsTree) (dir : Location) : d.usedBelow dir = d.total dir := by
  have hsizes : ∀ x ∈ d.entries.filter (fun x => dir.isPrefixOf x.1), x.2.fileSize = d.sizeAt x.1 := by
    rintro ⟨loc, e⟩ hx
    obtain ⟨-, hthere⟩ := h.mem_entries.mp (List.mem_filter.mp hx).1
    rw [sizeAt, hthere, Option.elim_some]
  have hkeys : (d.entries.filter fun x => dir.isPrefixOf x.1).map (fun x => d.sizeAt x.1) =
      ((d.entries.map Prod.fst).filter fun loc => dir.isPrefixOf loc).map d.sizeAt := by
    rw [List.filter_map, List.map_map]
    rfl
  calc d.usedBelow dir
      = ((d.entries.filter fun x => dir.isPrefixOf x.1).map fun x => x.2.fileSize).sum := rfl
    _ = (((d.entries.map Prod.fst).filter fun loc => dir.isPrefixOf loc).map d.sizeAt).sum := by
        rw [List.map_congr_left hsizes, hkeys]
    _ = ∑ loc ∈ (d.entries.map Prod.fst).toFinset with dir <+: loc, d.sizeAt loc := by
        rw [← List.sum_toFinset _ (h.distinct.filter _), List.toFinset_filter]
        simp
    _ = ∑ loc ∈ d.filesUnder dir, d.sizeAt loc := by
        rw [filesUnder, ← Finset.filter_filter]
        refine (Finset.sum_filter_of_ne fun loc _ hsome => ?_).symm
        by_contra hnot
        exact hsome (sizeAt_of_no_file hnot)

/-! ## One directory at a time -/

theorem IsTree.mem_listing (h : d.IsTree) : (loc, e) ∈ d.listing dir ↔
    ∃ x, loc = dir ++ [x] ∧ d.get? loc = some e := by
  rw [listing, List.mem_filter, h.mem_entries, decide_eq_true_iff]
  constructor
  · rintro ⟨⟨hloc, hthere⟩, hdir⟩
    obtain ⟨ns, x, rfl⟩ := (List.eq_nil_or_concat loc).resolve_left hloc
    rw [List.concat_eq_append] at hdir hthere ⊢
    rw [List.dropLast_concat] at hdir
    exact ⟨x, by rw [hdir], hthere⟩
  · rintro ⟨x, rfl, hthere⟩
    exact ⟨⟨by simp, hthere⟩, List.dropLast_concat⟩

theorem IsTree.directory_of_prefix (h : d.IsTree) {rest : Location} (hrest : rest ≠ [])
    (hthere : d.get? (dir ++ rest) = some e) : d.get? dir = some .directory :=
  directory_of_nested (fun ns => h.nested (dir ++ ns)) hrest hthere

theorem IsTree.take_mem_listing (h : d.IsTree) (hdir : d.get? dir = some .directory)
    (hloc : loc ∈ d.filesUnder dir) :
    loc.take (dir.length + 1) ∈ (d.listing dir).map Prod.fst := by
  obtain ⟨⟨rest, rfl⟩, serial, content, hfile⟩ := h.mem_filesUnder.mp hloc
  cases rest with
  | nil =>
    rw [List.append_nil, hdir] at hfile
    cases hfile
  | cons x more =>
    have hname : dir ++ x :: more = dir ++ [x] ++ more := by simp
    have htake : (dir ++ x :: more).take (dir.length + 1) = dir ++ [x] := by
      rw [hname, List.take_left' (by simp)]
    obtain ⟨e, hthere⟩ : ∃ e, d.get? (dir ++ [x]) = some e := by
      rw [hname] at hfile
      cases more with
      | nil => exact ⟨_, by simpa using hfile⟩
      | cons y more => exact ⟨_, h.directory_of_prefix (by simp) hfile⟩
    rw [htake]
    exact List.mem_map.mpr ⟨(dir ++ [x], e), h.mem_listing.mpr ⟨x, rfl, hthere⟩, rfl⟩

/-- The files below a directory are those below what lies in it. -/
theorem IsTree.sum_listing (h : d.IsTree) (hdir : d.get? dir = some .directory) :
    ((d.listing dir).map fun x => d.total x.1).sum = d.total dir := by
  have hdistinct : ((d.listing dir).map Prod.fst).Nodup :=
    h.distinct.sublist (List.filter_sublist.map Prod.fst)
  have hbelow : ∀ c ∈ ((d.listing dir).map Prod.fst).toFinset,
      d.filesUnder c = (d.filesUnder dir).filter fun loc => loc.take (dir.length + 1) = c := by
    intro c hc
    obtain ⟨⟨loc, e⟩, hmem, rfl⟩ := List.mem_map.mp (List.mem_toFinset.mp hc)
    obtain ⟨x, rfl, -⟩ := h.mem_listing.mp hmem
    ext q
    rw [Finset.mem_filter, h.mem_filesUnder, h.mem_filesUnder, List.prefix_iff_eq_take,
      List.length_append, List.length_singleton]
    constructor
    · rintro ⟨htake, hfile⟩
      have hpre : dir ++ [x] <+: q := by
        rw [show dir ++ [x] = q.take (dir.length + 1) from htake]
        exact List.take_prefix _ _
      exact ⟨⟨(List.prefix_append dir [x]).trans hpre, hfile⟩, htake.symm⟩
    · rintro ⟨⟨-, hfile⟩, htake⟩
      exact ⟨htake.symm, hfile⟩
  calc ((d.listing dir).map fun x => d.total x.1).sum
      = ∑ c ∈ ((d.listing dir).map Prod.fst).toFinset, ∑ loc ∈ d.filesUnder c, d.sizeAt loc := by
        rw [List.sum_toFinset _ hdistinct, List.map_map]
        rfl
    _ = ∑ c ∈ ((d.listing dir).map Prod.fst).toFinset,
          ∑ loc ∈ d.filesUnder dir with loc.take (dir.length + 1) = c, d.sizeAt loc :=
        Finset.sum_congr rfl fun c hc => by rw [hbelow c hc]
    _ = ∑ loc ∈ d.filesUnder dir, d.sizeAt loc :=
        Finset.sum_fiberwise_of_maps_to
          (fun loc hloc => List.mem_toFinset.mpr (h.take_mem_listing hdir hloc)) _

theorem IsTree.total_of_leaf (h : d.IsTree) (hthere : d.get? loc = some e)
    (hleaf : e ≠ .directory) : d.total loc = e.fileSize := by
  have hown : d.filesUnder loc ⊆ {loc} := by
    intro q hq
    obtain ⟨⟨rest, rfl⟩, serial, content, hfile⟩ := h.mem_filesUnder.mp hq
    rw [Finset.mem_singleton]
    by_contra hne
    have hdir := h.directory_of_prefix (fun hnil => hne (by rw [hnil, List.append_nil])) hfile
    rw [hthere] at hdir
    exact hleaf (Option.some.inj hdir)
  calc d.total loc
      = ∑ q ∈ {loc}, d.sizeAt q := by
        refine Finset.sum_subset hown fun q hq hnot => sizeAt_of_no_file fun hsome => hnot ?_
        obtain rfl := Finset.mem_singleton.mp hq
        exact h.mem_filesUnder.mpr ⟨List.prefix_refl q, isSome_contentOf?.mp hsome⟩
    _ = e.fileSize := by rw [Finset.sum_singleton, sizeAt, hthere, Option.elim_some]

/-- A file that is deleted is counted no more, and all others are. -/
theorem IsTree.total_erase (h : d.IsTree) {serial : Nat} {content : Content}
    (hbelow : dir <+: loc) (hfile : d.get? loc = some (.file serial content)) :
    d.total dir = content.size + (d.erase loc).total dir := by
  have hloc := ne_nil_of_get? hfile
  have herased : (d.erase loc).filesUnder dir = (d.filesUnder dir).erase loc := by
    ext q
    rw [(h.erase hfile (by simp)).mem_filesUnder, Finset.mem_erase, h.mem_filesUnder, HoldsFile,
      HoldsFile, get?_erase d hloc]
    by_cases hq : q = loc <;> simp [hq]
  have hsize : d.sizeAt loc = content.size := by
    rw [sizeAt, hfile]
    rfl
  rw [total, total, herased,
    ← Finset.add_sum_erase _ _ (h.mem_filesUnder.mpr ⟨hbelow, serial, content, hfile⟩), hsize]
  congr 1
  refine Finset.sum_congr rfl fun q hq => ?_
  rw [sizeAt_erase hloc, if_neg (Finset.ne_of_mem_erase hq)]

/-! ## The walk -/

/-- Every directory below is listed by a path that is looked up. -/
def Listed (d : Disk) (p : OsPath) (base dir : Location) : Prop :=
  ∀ ns, d.get? (dir ++ ns) = some .directory →
    (p.join ((dir ++ ns).drop base.length)).bytes ≤ OsPath.maxBytes

/-- What a count of `n` bytes comes to, where it is `good` that every directory is listed: `n`, or
nothing where that is no word. Where a directory is not listed the count fails, if it does not leave the
words before. -/
structure Comes (good : Prop) (n : Nat) (r : Option (Except OsError UInt64)) : Prop where
  word : good → n < UInt64.size → r = some (.ok (.ofNat n))
  beyond : good → UInt64.size ≤ n → r = none
  unlisted : ¬ good → n < UInt64.size → r = some (.error .nameTooLong)

namespace Comes

variable {good : Prop} {n : Nat}

theorem of_word (hgood : good) (hn : n < UInt64.size) : Comes good n (some (.ok (.ofNat n))) :=
  ⟨fun _ _ => rfl, fun _ hbeyond => absurd hn (Nat.not_lt.mpr hbeyond), fun hbad => absurd hgood hbad⟩

theorem of_beyond (hn : UInt64.size ≤ n) : Comes good n none :=
  ⟨fun _ hword => absurd hn (Nat.not_le.mpr hword), fun _ _ => rfl,
    fun _ hword => absurd hn (Nat.not_le.mpr hword)⟩

theorem of_unlisted (hbad : ¬ good) : Comes good n (some (.error .nameTooLong)) :=
  ⟨fun hgood => absurd hgood hbad, fun hgood => absurd hgood hbad, fun _ _ => rfl⟩

theorem congr {good' : Prop} {m : Nat} {r : Option (Except OsError UInt64)} (h : Comes good n r)
    (hgood : good ↔ good') (hn : n = m) : Comes good' m r := by
  subst hn
  rwa [← propext hgood]

end Comes

variable {p : OsPath} {base : Location}

theorem IsTree.listed_iff (h : d.IsTree) (hdir : d.get? dir = some .directory) :
    d.Listed p base dir ↔ (p.join (dir.drop base.length)).bytes ≤ OsPath.maxBytes ∧
      ∀ x ∈ d.listing dir, x.2 = .directory → d.Listed p base x.1 := by
  constructor
  · intro hlisted
    constructor
    · simpa using hlisted [] (by rwa [List.append_nil])
    · rintro ⟨loc, e⟩ hx - ns hns
      obtain ⟨y, rfl, -⟩ := h.mem_listing.mp hx
      rw [List.append_assoc] at hns ⊢
      exact hlisted ([y] ++ ns) hns
  · rintro ⟨hown, hbelow⟩ ns hns
    cases ns with
    | nil => rwa [List.append_nil]
    | cons y rest =>
      have hname : dir ++ y :: rest = dir ++ [y] ++ rest := by simp
      rw [hname] at hns ⊢
      have hin : d.get? (dir ++ [y]) = some .directory := by
        by_cases hrest : rest = []
        · rwa [hrest, List.append_nil] at hns
        · exact h.directory_of_prefix hrest hns
      exact hbelow (dir ++ [y], .directory) (h.mem_listing.mpr ⟨y, rfl, hin⟩) rfl rest hns

/-- The sum of counts, begun with `m`, comes to the sum of what is counted. -/
theorem comes_foldlM {α : Type} {xs : List α} {visit : α → ExceptT OsError Option UInt64}
    {n : α → Nat} {good : α → Prop} (h : ∀ x ∈ xs, Comes (good x) (n x) (visit x).run) {m : Nat}
    (hm : m < UInt64.size) :
    Comes (∀ x ∈ xs, good x) (m + (xs.map n).sum) (xs.foldlM (fun total x => do
      let count ← visit x
      Word.checkedAdd total count) (UInt64.ofNat m)).run := by
  induction xs generalizing m with
  | nil => exact .of_word (by simp) hm
  | cons x xs ih =>
    have hx := h x List.mem_cons_self
    have hxs := fun y hy => h y (List.mem_cons_of_mem x hy)
    rw [List.map_cons, List.sum_cons, ← Nat.add_assoc, List.foldlM_cons, ExceptT.run_bind,
      ExceptT.run_bind]
    by_cases hgood : good x
    · have hall : (∀ y ∈ xs, good y) ↔ ∀ y ∈ x :: xs, good y := by simp [hgood]
      by_cases hword : n x < UInt64.size
      · rw [hx.word hgood hword]
        by_cases hsum : m + n x < UInt64.size
        · have hadd : Word.checkedAdd (.ofNat m) (.ofNat (n x)) = some (.ofNat (m + n x)) := by
            rw [Word.checkedAdd_ofNat hm hword, Word.ofNat?, if_pos hsum]
          simp only [Option.bind_eq_bind, Option.bind_some, hadd]
          exact (ih hxs hsum).congr hall rfl
        · have hadd : Word.checkedAdd (.ofNat m) (.ofNat (n x)) = none := by
            rw [Word.checkedAdd_ofNat hm hword, Word.ofNat?, if_neg hsum]
          simp only [Option.bind_eq_bind, Option.bind_some, hadd]
          exact .of_beyond (by omega)
      · rw [hx.beyond hgood (Nat.not_lt.mp hword)]
        exact .of_beyond (by omega)
    · have hbad : ¬ ∀ y ∈ x :: xs, good y := fun hall => hgood (hall x List.mem_cons_self)
      by_cases hword : n x < UInt64.size
      · rw [hx.unlisted hgood hword]
        exact .of_unlisted hbad
      · exact ⟨fun hall => absurd hall hbad, fun hall => absurd hall hbad, fun _ hn => by omega⟩

theorem IsTree.comes_leaf (h : d.IsTree) (hthere : d.get? loc = some e) (hleaf : e ≠ .directory)
    {good : Prop} (hgood : good) (count : Location → ExceptT OsError Option UInt64) :
    Comes good (d.total loc) (countEntry count (loc, e)).run := by
  have htotal : d.total loc = e.fileSize := h.total_of_leaf hthere hleaf
  have hcount : (countEntry count (loc, e)).run = (Word.ofNat? e.fileSize).map Except.ok := by
    cases e with
    | directory => exact absurd rfl hleaf
    | file serial content => rfl
    | link target => rfl
  rw [hcount, htotal, Word.ofNat?]
  split
  · rename_i hword
    exact .of_word hgood hword
  · rename_i hword
    exact .of_beyond (Nat.not_lt.mp hword)

/-- The walk of a directory comes to what it should, if the walks of the directories in it do. -/
theorem IsTree.comes_of_listing (h : d.IsTree) (hdir : d.get? dir = some .directory) (depth : Nat)
    (hbelow : ∀ x ∈ d.listing dir, x.2 = .directory →
      Comes (d.Listed p base x.1) (d.total x.1) (d.countIn p base depth x.1).run) :
    Comes (d.Listed p base dir) (d.total dir) (d.countIn p base (depth + 1) dir).run := by
  rw [countIn]
  by_cases hown : (p.join (dir.drop base.length)).bytes ≤ OsPath.maxBytes
  · rw [if_neg (Nat.not_lt.mpr hown)]
    have hentries : ∀ x ∈ d.listing dir, Comes (x.2 = .directory → d.Listed p base x.1)
        (d.total x.1) (countEntry (d.countIn p base depth) x).run := by
      rintro ⟨loc, e⟩ hx
      obtain ⟨-, -, hthere⟩ := h.mem_listing.mp hx
      by_cases hleaf : e = .directory
      · subst hleaf
        exact (hbelow _ hx rfl).congr (by simp) rfl
      · exact h.comes_leaf hthere hleaf (fun hdirectory => absurd hdirectory hleaf) _
    refine (comes_foldlM hentries (m := 0) (by decide)).congr ?_ ?_
    · exact ⟨fun hall => (h.listed_iff hdir).mpr ⟨hown, hall⟩,
        fun hlisted => ((h.listed_iff hdir).mp hlisted).2⟩
    · rw [Nat.zero_add]
      exact h.sum_listing hdir
  · rw [if_pos (Nat.not_le.mp hown)]
    exact .of_unlisted fun hlisted => hown ((h.listed_iff hdir).mp hlisted).1

/-- A walk that is deep enough comes to what it should. -/
theorem IsTree.comes_countIn (h : d.IsTree) {depth : Nat} (hdir : d.get? dir = some .directory)
    (hdepth : ∀ rest e, d.get? (dir ++ rest) = some e → rest.length ≤ depth) :
    Comes (d.Listed p base dir) (d.total dir) (d.countIn p base (depth + 1) dir).run := by
  induction depth generalizing dir with
  | zero =>
    refine h.comes_of_listing hdir 0 fun x hx _ => ?_
    obtain ⟨y, hloc, hthere⟩ := h.mem_listing.mp hx
    have hlength := hdepth [y] x.2 (hloc ▸ hthere)
    simp at hlength
  | succ depth ih =>
    refine h.comes_of_listing hdir (depth + 1) fun x hx hx' => ?_
    obtain ⟨y, hloc, hthere⟩ := h.mem_listing.mp hx
    rw [hx'] at hthere
    refine ih hthere fun rest e he => ?_
    rw [hloc, List.append_assoc] at he
    have hlength := hdepth ([y] ++ rest) e he
    rw [List.length_append, List.length_singleton] at hlength
    omega

theorem IsTree.length_le_depth (h : d.IsTree) (hthere : d.get? loc = some e) :
    loc.length ≤ d.depth := by
  by_cases hloc : loc = []
  · rw [hloc]
    exact Nat.zero_le _
  · have hmem : loc.length ∈ d.entries.map fun x => x.1.length :=
      List.mem_map.mpr ⟨(loc, e), h.mem_entries.mpr ⟨hloc, hthere⟩, rfl⟩
    exact List.le_max_of_le' 0 hmem (Nat.le_refl _)

theorem IsTree.comes_base (h : d.IsTree) (hdir : d.get? base = some .directory) :
    Comes (d.Listed p base base) (d.total base) (d.countIn p base (d.depth + 1) base).run := by
  refine h.comes_countIn hdir fun rest e he => ?_
  have hlength := h.length_le_depth he
  rw [List.length_append] at hlength
  omega

theorem IsTree.listed_base_iff (h : d.IsTree) (hfound : d.find p = .ok (base, .directory)) :
    d.Listed p base base ↔ ∀ ns ∈ d.directoriesBelow base, (p.join ns).bytes ≤ OsPath.maxBytes := by
  constructor
  · intro hlisted ns hns
    obtain ⟨loc, e, hmem, ⟨ms, rfl⟩, hdir, rfl⟩ := mem_directoriesBelow.mp hns
    obtain ⟨-, hthere⟩ := h.mem_entries.mp hmem
    cases e with
    | directory => exact hlisted ms hthere
    | file serial content => cases hdir
    | link target => cases hdir
  · intro hall ns hns
    by_cases hloc : base ++ ns = []
    · have hstem : (p.join []).check = .ok () := by
        refine Storage.check_of_prefix ?_ (find_eq_directory.mp hfound).1
        rw [OsPath.join_eq, List.append_nil]
        exact Storage.stem_prefix_pieces p
      rw [hloc, List.drop_nil]
      exact (OsPath.check_eq_ok_iff.mp hstem).2
    · refine hall _ (mem_directoriesBelow.mpr ⟨base ++ ns, .directory, ?_, ?_, rfl, rfl⟩)
      · exact h.mem_entries.mpr ⟨hloc, hns⟩
      · exact List.prefix_append base ns

/-- The bytes in use, read off the table: the lengths of all files below the base, if every directory is
listed by a path that is looked up. -/
theorem IsTree.usedUnder_eq (h : d.IsTree) (hfound : d.find p = .ok (base, .directory)) :
    (d.Listed p base base → d.usedUnder p = .ok (d.total base)) ∧
      (¬ d.Listed p base base → d.usedUnder p = .error .nameTooLong) := by
  have hany : ((d.directoriesBelow base).any fun ns =>
      decide (OsPath.maxBytes < (p.join ns).bytes)) = true ↔ ¬ d.Listed p base base := by
    rw [h.listed_base_iff hfound]
    simp
  rw [usedUnder, hfound]
  dsimp only
  constructor
  · intro hlisted
    rw [if_neg fun hlong => hany.mp hlong hlisted, h.usedBelow_eq]
  · intro hnot
    rw [if_pos (hany.mpr hnot)]

/-- The walk in words and the table agree, where all files together take no more than a word. -/
theorem IsTree.usedUnder_eq_countIn (h : d.IsTree) (hfound : d.find p = .ok (base, .directory))
    (hdir : d.get? base = some .directory) (hword : d.total base < UInt64.size) :
    (d.countIn p base (d.depth + 1) base).run =
      some ((d.usedUnder p).map UInt64.ofNat) := by
  obtain ⟨hlisted, hunlisted⟩ := h.usedUnder_eq hfound
  have hcomes : Comes (d.Listed p base base) (d.total base)
      (d.countIn p base (d.depth + 1) base).run := h.comes_base hdir
  by_cases hall : d.Listed p base base
  · rw [hcomes.word hall hword, hlisted hall]
    rfl
  · rw [hcomes.unlisted hall hword, hunlisted hall]
    rfl

end Disk

end ResumableUpload
