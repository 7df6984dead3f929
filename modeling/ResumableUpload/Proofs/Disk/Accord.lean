import ResumableUpload.Proofs.Disk.Census

/-
  Accord — what the operations of a storage say of one file

  Four operations ask the disk about a file in ways of their own: whether it is
  there, how long it is, how much space it and all others take, and to delete
  it. Where directories alone lead to the file they say the same, before it is
  deleted and after, whatever links lie elsewhere. The space in use is counted in
  words, by a walk of the directories (`Storage.usedWord?`); `Storage.usedBytes`
  is the exact number, read off the table. The count is known as long as it is a
  word and every directory can be listed; a tree may be deeper than the operating
  system takes paths, and then nobody knows it.

  What is proved:
    1. `answers_of_file`, `answers_of_none` — what is said of a file that is
       there, and of one that is not.
    2. `delete_unchanged` — a deletion that deletes nothing changes nothing.
    3. `usedWord_eq_usedBytes`, `usedWord_counts`, `usedWord_beyond` — what the
       count comes to: the exact number, an error, or nothing.
    4. `operations_agree_on_a_file` — all of it.
    5. `great_files_leave_the_words`, `deep_tree_is_not_counted` — files that are
       too long together, and a tree that is too deep to be counted.
-/

namespace ResumableUpload

namespace Storage

variable {s : Storage} {d : Disk} {base names : Location} {path : String}

/-! ## One file -/

section File

variable (hfound : d.find s.basePath = .ok (base, .directory)) (hpath : resolve path = .ok names)
  (hclear : s.Clear d base names)
include hfound hpath hclear

theorem locate_of_clear {e : Option Entry} (hthere : d.get? (base ++ names) = e)
    (hend : ∀ target, e ≠ some (.link target)) (follow : Bool) :
    d.locate follow (s.filePath names) = .ok (d.lies (base ++ names)) := by
  obtain ⟨hsome, hnames⟩ := resolve_eq_ok hpath
  exact hclear.locate_eq hfound hnames hsome (hthere ▸ hend) follow

/-- A file that is there is found, measured and deleted. -/
theorem answers_of_file {serial : Nat} {content : Content}
    (hfile : d.get? (base ++ names) = some (.file serial content)) :
    s.hasFile d path = true ∧ s.fileSize d path = .ok content.size ∧
      s.delete d path = (d.erase (base ++ names), .ok true) := by
  have hlocate := locate_of_clear hfound hpath hclear hfile (by simp)
  rw [Disk.lies, hfile] at hlocate
  refine ⟨?_, ?_, ?_⟩
  · simp only [hasFile, hpath, Disk.isFile, Disk.find, hlocate]
  · simp only [fileSize, hpath, Disk.sizeOf, Disk.find, hlocate]
    rfl
  · simp only [delete, hpath, Disk.remove, hlocate]

/-- Where nothing lies, no file is found, measured or deleted. -/
theorem answers_of_none (hnone : d.get? (base ++ names) = none) :
    s.hasFile d path = false ∧ s.fileSize d path = .error (.notFound ("File: " ++ path)) ∧
      s.delete d path = (d, .ok false) := by
  have hlocate := locate_of_clear hfound hpath hclear hnone (by simp)
  rw [Disk.lies, hnone] at hlocate
  refine ⟨?_, ?_, ?_⟩
  · simp only [hasFile, hpath, Disk.isFile, Disk.find, hlocate]
  · simp only [fileSize, hpath, Disk.sizeOf, Disk.find, hlocate]
    rfl
  · simp only [delete, hpath, Disk.remove, hlocate]

end File

/-- A deletion that does not say that a file was deleted changes nothing. -/
theorem delete_unchanged (h : (s.delete d path).2 ≠ .ok true) : (s.delete d path).1 = d := by
  unfold delete at h ⊢
  cases hpath : resolve path with
  | error err => rfl
  | ok names =>
    rw [hpath] at h
    dsimp only at h ⊢
    cases hremove : d.remove (s.filePath names) with
    | ok d' =>
      rw [hremove] at h
      exact absurd rfl h
    | error cause => cases cause <;> rfl

/-! ## The space in use -/

theorem usedBytes_counts (htree : d.IsTree)
    (hfound : d.find s.basePath = .ok (base, .directory)) :
    (d.Listed s.basePath base base → s.usedBytes d = .ok (d.total base)) ∧
      (¬ d.Listed s.basePath base base → s.usedBytes d = .error (.io .nameTooLong)) := by
  obtain ⟨hlisted, hunlisted⟩ := htree.usedUnder_eq hfound
  rw [usedBytes]
  exact ⟨fun hall => by rw [hlisted hall]; rfl, fun hnot => by rw [hunlisted hnot]; rfl⟩

/-- The count in words comes to that number, where all files together take no more than a word. -/
theorem usedWord_eq_usedBytes (htree : d.IsTree)
    (hfound : d.find s.basePath = .ok (base, .directory)) (hdir : d.get? base = some .directory)
    (hword : d.total base < UInt64.size) :
    s.usedWord? d = some ((s.usedBytes d).map UInt64.ofNat) := by
  rw [usedWord?, hfound]
  dsimp only
  rw [htree.usedUnder_eq_countIn hfound hdir hword, usedBytes]
  cases d.usedUnder s.basePath <;> rfl

theorem usedWord_counts (htree : d.IsTree)
    (hfound : d.find s.basePath = .ok (base, .directory)) (hdir : d.get? base = some .directory)
    (hword : d.total base < UInt64.size) :
    (d.Listed s.basePath base base → s.usedWord? d = some (.ok (.ofNat (d.total base)))) ∧
      (¬ d.Listed s.basePath base base → s.usedWord? d = some (.error (.io .nameTooLong))) := by
  obtain ⟨hlisted, hunlisted⟩ := usedBytes_counts htree hfound
  rw [usedWord_eq_usedBytes htree hfound hdir hword]
  exact ⟨fun hall => by rw [hlisted hall]; rfl, fun hnot => by rw [hunlisted hnot]; rfl⟩

/-- Where they take more, nothing comes of it. -/
theorem usedWord_beyond (htree : d.IsTree)
    (hfound : d.find s.basePath = .ok (base, .directory)) (hdir : d.get? base = some .directory)
    (hlisted : d.Listed s.basePath base base) (hbeyond : UInt64.size ≤ d.total base) :
    s.usedWord? d = none := by
  rw [usedWord?, hfound]
  dsimp only
  rw [(htree.comes_base hdir).beyond hlisted hbeyond]
  rfl

theorem listed_erase_iff {loc : Location} {serial : Nat} {content : Content}
    (hfile : d.get? loc = some (.file serial content)) :
    (d.erase loc).Listed s.basePath base base ↔ d.Listed s.basePath base base := by
  refine forall_congr' fun ns => imp_congr_left ⟨fun hdir => ?_, ?_⟩
  · rw [Disk.get?_erase d (Disk.ne_nil_of_get? hfile)] at hdir
    split at hdir
    · cases hdir
    · exact hdir
  · exact (Disk.steady_erase hfile).directories _

/-! ## All that is said -/

/-- Where directories alone lead to a file, all operations know it, and the space in use with it: counted in
words, it is the exact number as long as that is a word. Once the file is deleted they agree that it is
gone, the space in use is less by its length, and nothing else has changed; and a deletion that does not say
that a file was deleted changes nothing at all. -/
theorem operations_agree_on_a_file (htree : d.IsTree)
    (hfound : d.find s.basePath = .ok (base, .directory)) (hpath : resolve path = .ok names)
    (hclear : s.Clear d base names) {serial : Nat} {content : Content}
    (hfile : d.get? (base ++ names) = some (.file serial content)) :
    s.hasFile d path = true ∧ s.fileSize d path = .ok content.size ∧
      (d.Listed s.basePath base base → d.total base < UInt64.size →
        s.usedWord? d = some (.ok (.ofNat (d.total base)))) ∧
      (d.Listed s.basePath base base → UInt64.size ≤ d.total base → s.usedWord? d = none) ∧
      (¬ d.Listed s.basePath base base → d.total base < UInt64.size →
        s.usedWord? d = some (.error (.io .nameTooLong))) ∧
      (d.total base < UInt64.size → s.usedWord? d = some ((s.usedBytes d).map UInt64.ofNat)) ∧
      (∃ d', s.delete d path = (d', .ok true) ∧
        content.size ≤ d.total base ∧ d'.total base = d.total base - content.size ∧
        (d.Listed s.basePath base base → d.total base < UInt64.size →
          s.usedWord? d' = some (.ok (.ofNat (d.total base - content.size)))) ∧
        (¬ d.Listed s.basePath base base → d.total base < UInt64.size →
          s.usedWord? d' = some (.error (.io .nameTooLong))) ∧
        s.hasFile d' path = false ∧ s.fileSize d' path = .error (.notFound ("File: " ++ path)) ∧
        s.delete d' path = (d', .ok false) ∧
        ∀ loc, d'.get? loc = if loc = base ++ names then none else d.get? loc) ∧
      ∀ other, (s.delete d other).2 ≠ .ok true → (s.delete d other).1 = d := by
  have hdir : d.get? base = some .directory :=
    htree.directory_of_prefix (resolve_eq_ok hpath).1 hfile
  have hcounts := usedWord_counts htree hfound hdir
  obtain ⟨hhas, hsize, hdelete⟩ := answers_of_file hfound hpath hclear hfile
  refine ⟨hhas, hsize, fun hlisted hword => (hcounts hword).1 hlisted,
    usedWord_beyond htree hfound hdir, fun hnot hword => (hcounts hword).2 hnot,
    usedWord_eq_usedBytes htree hfound hdir, ⟨d.erase (base ++ names), hdelete, ?_⟩,
    fun other hother => delete_unchanged hother⟩
  -- what is left once the file is gone
  have hsteady := Disk.steady_erase hfile
  have hgone := Disk.get?_erase d (Disk.ne_nil_of_get? hfile)
  have hless := htree.total_erase (List.prefix_append base names) hfile
  have hleft : (d.erase (base ++ names)).total base = d.total base - content.size := by omega
  have hfound' := Disk.find_steady hsteady hfound
  have hcounts' : d.total base < UInt64.size → _ := fun hword =>
    usedWord_counts (htree.erase hfile (by simp)) hfound' (hsteady.directories _ hdir)
      (by omega)
  rw [listed_erase_iff hfile, hleft] at hcounts'
  obtain ⟨hhas', hsize', hdelete'⟩ :=
    answers_of_none hfound' hpath (hclear.steady hsteady) (by rw [hgone, if_pos rfl])
  exact ⟨by omega, hleft, fun hlisted hword => (hcounts' hword).1 hlisted,
    fun hnot hword => (hcounts' hword).2 hnot, hhas', hsize', hdelete', hgone⟩

/-- A file of three bytes beside a link to it. -/
def linkedFile : Disk :=
  (emptyBase.set ["up", "f"] (.file 0 (.zeros 3))).set ["up", "l"] (.link "f")

theorem emptyBase_isTree : emptyBase.IsTree := by
  show (Disk.set .empty ([] ++ ["up"]) .directory).IsTree
  exact Disk.isTree_empty.set rfl rfl _

theorem linkedFile_isTree : linkedFile.IsTree := by
  have hfile : (emptyBase.set (["up"] ++ ["f"]) (.file 0 (.zeros 3))).IsTree :=
    emptyBase_isTree.set rfl rfl _
  show ((emptyBase.set (["up"] ++ ["f"]) _).set (["up"] ++ ["l"]) _).IsTree
  exact hfile.set rfl rfl _

theorem clear_in_base (d : Disk) : (Storage.mk "up").Clear d ["up"] ["f"] :=
  ⟨rfl, by decide, fun hmore => absurd rfl hmore, trivial⟩

/-- The file is known by its name, and so it is once it was deleted that it is gone. -/
theorem three_bytes_beside_a_link :
    linkedFile.IsTree ∧ linkedFile.find (Storage.mk "up").basePath = .ok (["up"], .directory) ∧
      (Storage.mk "up").Clear linkedFile ["up"] ["f"] ∧
      (Storage.mk "up").fileSize linkedFile "f" = .ok 3 ∧
      (Storage.mk "up").usedWord? linkedFile = some (.ok 3) ∧
      ∃ d', (Storage.mk "up").delete linkedFile "f" = (d', .ok true) ∧
        (Storage.mk "up").usedWord? d' = some (.ok 0) ∧
        (Storage.mk "up").fileSize d' "f" = .error (.notFound "File: f") ∧
        (Storage.mk "up").delete d' "f" = (d', .ok false) := by
  have htotal : linkedFile.total ["up"] = 3 := (linkedFile_isTree.usedBelow_eq ["up"]).symm
  have hword : linkedFile.total ["up"] < UInt64.size := by
    rw [htotal]
    decide
  have hlisted : linkedFile.Listed (Storage.mk "up").basePath ["up"] ["up"] :=
    (linkedFile_isTree.listed_base_iff rfl).mpr (by decide)
  obtain ⟨-, hsize, hused, -, -, -, ⟨d', hdelete, -, -, hleft, -, -, hsize', hagain, -⟩, -⟩ :=
    operations_agree_on_a_file linkedFile_isTree rfl (rfl : resolve "f" = .ok ["f"])
      (clear_in_base _) rfl
  have hthree := hused hlisted hword
  have hzero := hleft hlisted hword
  rw [htotal] at hthree hzero
  exact ⟨linkedFile_isTree, rfl, clear_in_base _, hsize, hthree, d', hdelete, hzero, hsize', hagain⟩

/-! ## Where nothing is counted -/

/-- Three files that hold nothing, each as long as a file can be. -/
def greatFiles : Disk :=
  ((emptyBase.set ["up", "a"] (.file 0 (.zeros (2 ^ 63 - 1)))).set ["up", "b"]
    (.file 1 (.zeros (2 ^ 63 - 1)))).set ["up", "c"] (.file 2 (.zeros (2 ^ 63 - 1)))

theorem greatFiles_isTree : greatFiles.IsTree := by
  let long := Content.zeros (2 ^ 63 - 1)
  have hfirst : (emptyBase.set (["up"] ++ ["a"]) (.file 0 long)).IsTree :=
    emptyBase_isTree.set rfl rfl _
  have hsecond : ((emptyBase.set (["up"] ++ ["a"]) (.file 0 long)).set (["up"] ++ ["b"])
      (.file 1 long)).IsTree := hfirst.set rfl rfl _
  show (((emptyBase.set _ _).set (["up"] ++ ["b"]) _).set (["up"] ++ ["c"]) (.file 2 long)).IsTree
  exact hsecond.set rfl rfl _

/-- Together they are longer than any word says. -/
theorem great_files_leave_the_words :
    (Storage.mk "up").fileSize greatFiles "a" = .ok (2 ^ 63 - 1) ∧
      (Storage.mk "up").usedWord? greatFiles = none := by
  have hlisted : greatFiles.Listed (Storage.mk "up").basePath ["up"] ["up"] :=
    (greatFiles_isTree.listed_base_iff rfl).mpr (by decide)
  have hbeyond : UInt64.size ≤ greatFiles.total ["up"] := by
    rw [← greatFiles_isTree.usedBelow_eq]
    decide
  exact ⟨rfl, usedWord_beyond greatFiles_isTree rfl rfl hlisted hbeyond⟩

/-- Directories in one another below the base of a storage, `n` deep. -/
def deepDirectories : Nat → Disk
  | 0 => emptyBase
  | n + 1 => (deepDirectories n).set (["up"] ++ List.replicate n "d" ++ ["d"]) .directory

/-- What lies in them, and beside them. -/
theorem get?_deepDirectories (n : Nat) (ns : Location) :
    (deepDirectories n).get? (["up"] ++ ns) =
      if ∃ k ≤ n, ns = List.replicate k "d" then some .directory else none := by
  induction n with
  | zero =>
    by_cases hns : ns = []
    · subst hns
      rw [if_pos ⟨0, Nat.le_refl 0, rfl⟩]
      rfl
    · rw [if_neg, deepDirectories, emptyBase_free hns]
      rintro ⟨k, hk, rfl⟩
      rw [Nat.le_zero.mp hk] at hns
      exact hns rfl
  | succ n ih =>
    rw [deepDirectories, Disk.get?_set _ (by simp), List.append_assoc, ← List.replicate_succ']
    by_cases hlast : ns = List.replicate (n + 1) "d"
    · rw [if_pos (by rw [hlast]), if_pos ⟨n + 1, Nat.le_refl _, hlast⟩]
    · rw [if_neg fun heq => hlast (List.append_cancel_left heq), ih]
      refine if_congr ⟨?_, ?_⟩ rfl rfl
      · rintro ⟨k, hk, hns⟩
        exact ⟨k, Nat.le_succ_of_le hk, hns⟩
      · rintro ⟨k, hk, hns⟩
        refine ⟨k, ?_, hns⟩
        have hne : k ≠ n + 1 := by
          rintro rfl
          exact hlast hns
        omega

/-- A file of one byte beside directories that the operating system takes no path of. -/
def deepTree : Disk := (deepDirectories 2047).set ["up", "f"] (.file 0 (.zeros 1))

theorem deepDirectories_isTree (n : Nat) : (deepDirectories n).IsTree := by
  induction n with
  | zero => exact emptyBase_isTree
  | succ n ih =>
    refine ih.set ?_ ?_ _
    · rw [get?_deepDirectories, if_pos ⟨n, Nat.le_refl n, rfl⟩]
    · rw [List.append_assoc, ← List.replicate_succ', get?_deepDirectories, if_neg]
      · rfl
      · rintro ⟨k, hk, heq⟩
        have hlength := congrArg List.length heq
        rw [List.length_replicate, List.length_replicate] at hlength
        omega

theorem not_replicate {k : Nat} : ["f"] ≠ List.replicate k "d" := by
  intro heq
  have hmem : "f" ∈ List.replicate k "d" := heq ▸ List.mem_cons_self
  exact absurd (List.eq_of_mem_replicate hmem) (by decide)

theorem beside_isTree (n : Nat) :
    ((deepDirectories n).set (["up"] ++ ["f"]) (.file 0 (.zeros 1))).IsTree := by
  refine (deepDirectories_isTree n).set ?_ ?_ _
  · have htop := get?_deepDirectories n []
    rwa [if_pos ⟨0, Nat.zero_le n, rfl⟩, List.append_nil] at htop
  · rw [get?_deepDirectories, if_neg fun ⟨_, _, hone⟩ => not_replicate hone]
    rfl

theorem bytes_deep (n : Nat) :
    ((Storage.mk "up").basePath.join (List.replicate n "d")).bytes = 2 + 2 * n := by
  show ((["up"] ++ List.replicate n "d").map String.utf8ByteSize).sum +
    ((["up"] ++ List.replicate n "d").length - 1) = _
  rw [List.map_append, List.sum_append, List.map_replicate, List.sum_replicate, List.length_append,
    List.length_replicate]
  show 2 + n * 1 + (1 + n - 1) = _
  omega

theorem get?_deepTree (q : Location) : deepTree.get? q =
    if q = ["up", "f"] then some (.file 0 (.zeros 1)) else (deepDirectories 2047).get? q :=
  Disk.get?_set _ (by simp) q _

theorem deepTree_isTree : deepTree.IsTree := beside_isTree 2047

theorem deepTree_directory {k : Nat} (hk : k ≤ 2047) :
    deepTree.get? (["up"] ++ List.replicate k "d") = some .directory := by
  rw [get?_deepTree, if_neg, get?_deepDirectories, if_pos ⟨k, hk, rfl⟩]
  exact fun heq => not_replicate (List.append_cancel_left heq).symm

theorem total_deepTree : deepTree.total ["up"] = 1 := by
  have hfiles : deepTree.filesUnder ["up"] = {["up", "f"]} := by
    ext loc
    rw [deepTree_isTree.mem_filesUnder, Finset.mem_singleton, Disk.HoldsFile, get?_deepTree]
    constructor
    · rintro ⟨⟨ns, rfl⟩, serial, content, hfile⟩
      by_contra hne
      rw [if_neg hne, get?_deepDirectories] at hfile
      split at hfile <;> cases hfile
    · rintro rfl
      exact ⟨⟨["f"], rfl⟩, 0, .zeros 1, rfl⟩
  rw [Disk.total, hfiles, Finset.sum_singleton, Disk.sizeAt, get?_deepTree, if_pos rfl]
  rfl

/-- The file is there and its length known, but not the space in use. -/
theorem deep_tree_is_not_counted :
    deepTree.IsTree ∧ deepTree.find (Storage.mk "up").basePath = .ok (["up"], .directory) ∧
      resolve "f" = .ok ["f"] ∧ (Storage.mk "up").Clear deepTree ["up"] ["f"] ∧
      deepTree.get? ["up", "f"] = some (.file 0 (.zeros 1)) ∧ deepTree.total ["up"] = 1 ∧
      (Storage.mk "up").usedWord? deepTree = some (.error (.io .nameTooLong)) := by
  have hdir : deepTree.get? ["up"] = some .directory := by
    have htop := deepTree_directory (Nat.zero_le 2047)
    rwa [List.replicate_zero, List.append_nil] at htop
  have hfound : deepTree.find (Storage.mk "up").basePath = .ok (["up"], .directory) := by
    refine Disk.find_eq_directory.mpr ⟨rfl, ?_⟩
    show deepTree.walk true Disk.maxLinks [] ["up"] = _
    rw [Disk.walk, Disk.tread_enter (by decide) (by decide) (by decide) (by decide),
      List.nil_append, hdir]
    rfl
  have hunlisted : ¬ deepTree.Listed (Storage.mk "up").basePath ["up"] ["up"] := by
    intro hlisted
    have hbytes := hlisted (List.replicate 2047 "d") (deepTree_directory (Nat.le_refl 2047))
    rw [List.drop_left, bytes_deep] at hbytes
    exact absurd hbytes (by decide)
  have hword : deepTree.total ["up"] < UInt64.size := by
    rw [total_deepTree]
    decide
  exact ⟨deepTree_isTree, hfound, rfl, clear_in_base _, by rw [get?_deepTree, if_pos rfl],
    total_deepTree, (usedWord_counts deepTree_isTree hfound hdir hword).2 hunlisted⟩

end Storage

end ResumableUpload
