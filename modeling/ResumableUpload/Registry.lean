import ResumableUpload.Error
import ResumableUpload.Record

/-
  Registry — the uploads in progress

  At most one record per path text, kept in the order of the paths. Every
  registration gets a new number, so a record can be told from an earlier one
  at the same path.

  What is held:
    1. `find?`, `register`, `enqueue`, `remove`, `modify`.
    2. `owned?` — the record at a path, if it is of the registration asked for.
    3. `reservedBytes` — the declared sizes of all records, summed as exact
       numbers; `Words` has the sum in words, which may fall outside them.

  The view of a registry is `find?`: `find?_eq_some_iff` says what it finds, and
  `find?_modify`, `find?_remove` and `find?_register` say what each change makes
  of it; `owned?_eq_some_iff` and `owned?_eq_none_iff` say what `owned?` finds.
  `register_of_known` and `register_of_absent` say when a registration passes.

  Correspondence (registry ↔ library):
    `initialize`, `enqueue_fragment`         ↔ `register`, `enqueue`
    `remove`, `get`, `contains`, `status`    ↔ `remove`, `get`, `contains`, `status`
    `active_paths`, `pending_paths`          ↔ `paths`, `pendingPaths`
    `owned`                                  ↔ `owned?`
    `reserved_bytes`                         ↔ `reservedBytes`, `reservedWord?`
    `writing_count`                          ↔ `writingCount`
-/

namespace ResumableUpload

/-- Puts a record into a list ordered by path, before the first greater path. -/
def insertByPath (r : Record) : List Record → List Record
  | [] => [r]
  | s :: rest => if r.path < s.path then r :: s :: rest else s :: insertByPath r rest

theorem mem_insertByPath {r s : Record} {rs : List Record} :
    s ∈ insertByPath r rs ↔ s = r ∨ s ∈ rs := by
  induction rs with
  | nil => simp [insertByPath]
  | cons t rest ih =>
    unfold insertByPath
    split
    · simp
    · simp only [List.mem_cons, ih]
      constructor <;> rintro (h | h | h) <;> simp [h]

/-- A new path keeps the order. -/
theorem pairwise_insertByPath {r : Record} {rs : List Record}
    (h : rs.Pairwise fun a b => a.path < b.path) (hnew : ∀ s ∈ rs, s.path ≠ r.path) :
    (insertByPath r rs).Pairwise fun a b => a.path < b.path := by
  induction rs with
  | nil => simp [insertByPath]
  | cons s rest ih =>
    rw [List.pairwise_cons] at h
    unfold insertByPath
    split
    · rename_i hlt
      refine List.pairwise_cons.mpr ⟨?_, List.pairwise_cons.mpr h⟩
      intro t ht
      rcases List.mem_cons.mp ht with rfl | ht
      · exact hlt
      · exact String.lt_trans hlt (h.1 t ht)
    · rename_i hlt
      have hsr : s.path < r.path := by
        have hne := hnew s List.mem_cons_self
        have hle : s.path ≤ r.path := String.not_lt.mp hlt
        exact Std.lt_of_le_of_ne hle hne
      refine List.pairwise_cons.mpr ⟨?_, ih h.2 fun t ht => hnew t (List.mem_cons_of_mem s ht)⟩
      intro t ht
      rcases mem_insertByPath.mp ht with rfl | ht
      · exact hsr
      · exact h.1 t ht

/-- The uploads in progress. -/
structure Registry where
  records : List Record
  /-- The number of the next registration. -/
  nextId : UploadId
  /-- The records are in the order of their paths, so no path occurs twice. -/
  sorted : records.Pairwise fun a b => a.path < b.path

namespace Registry

/-- No upload. -/
def empty : Registry := ⟨[], 0, .nil⟩

instance : Inhabited Registry := ⟨empty⟩

/-- The record at a path. -/
def find? (g : Registry) (path : String) : Option Record :=
  g.records.find? fun r => r.path = path

/-- The record at a path, or the failure of asking for it. -/
def get (g : Registry) (path : String) : Except UploadError Record :=
  match g.find? path with
  | some r => .ok r
  | none => .error (.unknownUpload path)

/-- Whether the path names an upload. -/
def contains (g : Registry) (path : String) : Bool := (g.find? path).isSome

/-- The record at a path, if it is of the registration `id`. -/
def owned? (g : Registry) (path : String) (id : UploadId) : Option Record :=
  (g.find? path).filter fun r => r.id = id

/-- The registry with the record at `path` changed; a change keeps the record's path. -/
def modify (g : Registry) (path : String) (change : Record → Record)
    (keeps : ∀ r, (change r).path = r.path := by intro r; exact .trans rfl rfl) : Registry where
  records := g.records.map fun r => if r.path = path then change r else r
  nextId := g.nextId
  sorted := by
    refine List.pairwise_map.mpr (g.sorted.imp ?_)
    intro a b hab
    have hkeep : ∀ r : Record, (if r.path = path then change r else r).path = r.path := by
      intro r
      split
      · exact keeps r
      · rfl
    rw [hkeep a, hkeep b]
    exact hab

/-- Registers an upload under a path that names none. -/
def register (g : Registry) (path : String) (size : Nat) (owner : Int) (clientPath : String) :
    Except UploadError (Registry × Ticket) :=
  if h : g.contains path then .error (.alreadyActive path)
  else
    let r := Record.new g.nextId path size owner clientPath
    .ok (⟨insertByPath r g.records, g.nextId + 1, pairwise_insertByPath g.sorted (by
      intro s hs hpath
      apply h
      simp only [contains, find?, List.find?_isSome]
      exact ⟨s, hs, decide_eq_true (show s.path = path from hpath)⟩)⟩, r.ticket)

/-- Accepts a fragment that lies within the declared size. -/
def enqueue (g : Registry) (path : String) (f : Fragment) : Except UploadError Registry :=
  match g.get path with
  | .error e => .error e
  | .ok r =>
    if f.stop ≤ r.size then .ok (g.modify path fun r => r.enqueue f)
    else .error (.outOfBounds path f.position f.len r.size)

/-- The registry without the record at `path`. -/
def remove (g : Registry) (path : String) : Registry where
  records := g.records.filter fun r => r.path ≠ path
  nextId := g.nextId
  sorted := g.sorted.filter _

/-- What the client is shown of the upload at a path. -/
def status (g : Registry) (path : String) : Except UploadError Status :=
  (g.get path).map Record.status

/-- The paths of all uploads, in order. -/
def paths (g : Registry) : List String := g.records.map Record.path

/-- The paths of the uploads with fragments that nobody is writing, in order. -/
def pendingPaths (g : Registry) : List String :=
  (g.records.filter Record.isPending).map Record.path

/-- The declared sizes of all uploads, summed as exact numbers. -/
def reservedBytes (g : Registry) : Nat := (g.records.map Record.size).foldr (· + ·) 0

/-- How many uploads hold a write slot. -/
def writingCount (g : Registry) : Nat := g.records.countP Record.writing

/-! ## What is found after a change -/

theorem eq_of_path_eq (g : Registry) {r s : Record} (hr : r ∈ g.records) (hs : s ∈ g.records)
    (h : r.path = s.path) : r = s := by
  have key : ∀ l : List Record, (l.Pairwise fun a b => a.path < b.path) →
      r ∈ l → s ∈ l → r = s := by
    intro l hl hr hs
    induction l with
    | nil => cases hr
    | cons t rest ih =>
      rw [List.pairwise_cons] at hl
      rcases List.mem_cons.mp hr with hrt | hr
      · rcases List.mem_cons.mp hs with hst | hs
        · rw [hrt, hst]
        · rw [hrt] at h
          exact absurd h (Std.ne_of_lt (hl.1 s hs))
      · rcases List.mem_cons.mp hs with hst | hs
        · rw [hst] at h
          exact absurd h.symm (Std.ne_of_lt (hl.1 r hr))
        · exact ih hl.2 hr hs
  exact key g.records g.sorted hr hs

theorem path_of_find? {g : Registry} {path : String} {r : Record} (h : g.find? path = some r) :
    r.path = path := by
  have := List.find?_some h
  exact of_decide_eq_true this

theorem find?_eq_some_iff {g : Registry} {path : String} {r : Record} :
    g.find? path = some r ↔ r ∈ g.records ∧ r.path = path := by
  constructor
  · intro h
    exact ⟨List.mem_of_find?_eq_some h, path_of_find? h⟩
  · rintro ⟨hmem, hpath⟩
    cases hf : g.find? path with
    | none =>
      have := List.find?_eq_none.mp hf r hmem
      simp [hpath] at this
    | some s =>
      have hs : s ∈ g.records := List.mem_of_find?_eq_some hf
      rw [g.eq_of_path_eq hs hmem (by rw [path_of_find? hf, hpath])]

theorem find?_eq_none_iff {g : Registry} {path : String} :
    g.find? path = none ↔ ∀ r ∈ g.records, r.path ≠ path := by
  simp [find?, List.find?_eq_none]

theorem owned?_eq_some_iff {g : Registry} {path : String} {id : UploadId} {r : Record} :
    g.owned? path id = some r ↔ g.find? path = some r ∧ r.id = id := by
  simp [owned?, Option.filter_eq_some_iff]

theorem owned?_eq_none_iff {g : Registry} {path : String} {id : UploadId} :
    g.owned? path id = none ↔ ∀ r, g.find? path = some r → r.id ≠ id := by
  simp [owned?, Option.filter_eq_none_iff]

@[simp] theorem find?_empty (path : String) : empty.find? path = none := rfl

theorem find?_modify (g : Registry) (path q : String) (change : Record → Record)
    (keeps : ∀ r, (change r).path = r.path) :
    (g.modify path change keeps).find? q =
      if q = path then (g.find? q).map change else g.find? q := by
  show (g.records.map fun r => if r.path = path then change r else r).find? (fun r => r.path = q) =
    if q = path then (g.records.find? fun r => r.path = q).map change
    else g.records.find? fun r => r.path = q
  induction g.records with
  | nil => split <;> rfl
  | cons r rest ih =>
    have hpath : (if r.path = path then change r else r).path = r.path := by
      split
      · exact keeps r
      · rfl
    rw [List.map_cons, List.find?_cons, List.find?_cons, hpath, ih]
    by_cases hq : r.path = q
    · by_cases hp : q = path <;> simp [hq, hp]
    · simp [hq]

theorem find?_modify_self {g : Registry} {path : String} {r : Record} (h : g.find? path = some r)
    (change : Record → Record) (keeps : ∀ s, (change s).path = s.path) :
    (g.modify path change keeps).find? path = some (change r) := by
  rw [find?_modify, if_pos rfl, h]
  rfl

theorem owned?_modify_self {g : Registry} {path : String} {id : UploadId} {r : Record}
    (h : g.owned? path id = some r) (change : Record → Record)
    (keeps : ∀ s, (change s).path = s.path) (hid : (change r).id = r.id) :
    (g.modify path change keeps).owned? path id = some (change r) := by
  obtain ⟨hfind, rfl⟩ := owned?_eq_some_iff.mp h
  exact owned?_eq_some_iff.mpr ⟨find?_modify_self hfind change keeps, hid⟩

theorem owned?_withWriting {g : Registry} {path : String} {r : Record} (h : g.find? path = some r)
    (writing : Bool) : (g.modify path fun r => r.withWriting writing).owned? path r.id =
      some (r.withWriting writing) :=
  owned?_modify_self (owned?_eq_some_iff.mpr ⟨h, rfl⟩) (fun r => r.withWriting writing)
    (Record.path_withWriting writing) rfl

theorem find?_remove (g : Registry) (path q : String) :
    (g.remove path).find? q = if q = path then none else g.find? q := by
  split
  · rename_i h
    rw [find?_eq_none_iff]
    intro r hr
    have := (List.mem_filter.mp hr).2
    rw [h]
    exact of_decide_eq_true this
  · rename_i h
    cases hf : g.find? q with
    | none =>
      rw [find?_eq_none_iff] at hf ⊢
      intro r hr
      exact hf r (List.mem_filter.mp hr).1
    | some r =>
      obtain ⟨hmem, hpath⟩ := find?_eq_some_iff.mp hf
      refine find?_eq_some_iff.mpr ⟨List.mem_filter.mpr ⟨hmem, ?_⟩, hpath⟩
      exact decide_eq_true (by rw [hpath]; exact h)

/-- A path text in use is refused. -/
theorem register_of_known {g : Registry} {path : String} {r : Record} (h : g.find? path = some r)
    (size : Nat) (owner : Int) (clientPath : String) :
    g.register path size owner clientPath = .error (.alreadyActive path) := by
  have hknown : g.contains path = true := by simp [contains, h]
  rw [register, dif_pos hknown]

/-- A path text that is free is registered under the next number. -/
theorem register_of_absent {g : Registry} {path : String} (h : g.find? path = none) (size : Nat)
    (owner : Int) (clientPath : String) :
    ∃ next, g.register path size owner clientPath = .ok (next, ⟨g.nextId, path, size, owner⟩) := by
  have hfree : ¬ g.contains path = true := by simp [contains, h]
  rw [register, dif_neg hfree]
  exact ⟨_, rfl⟩

/-- A registration adds the new record under the next number, and touches no other path. -/
theorem find?_register {g next : Registry} {path clientPath : String} {size : Nat} {owner : Int}
    {t : Ticket} (h : g.register path size owner clientPath = .ok (next, t)) (q : String) :
    next.find? q =
      if q = path then some (Record.new g.nextId path size owner clientPath) else g.find? q := by
  unfold register at h
  split at h
  · cases h
  · cases h
    split
    · rename_i hq
      exact find?_eq_some_iff.mpr ⟨mem_insertByPath.mpr (.inl rfl), hq.symm⟩
    · rename_i hq
      cases hf : g.find? q with
      | none =>
        rw [find?_eq_none_iff] at hf ⊢
        intro r hr
        rcases mem_insertByPath.mp hr with rfl | hr
        · exact fun hpath => hq hpath.symm
        · exact hf r hr
      | some r =>
        obtain ⟨hmem, hpath⟩ := find?_eq_some_iff.mp hf
        exact find?_eq_some_iff.mpr ⟨mem_insertByPath.mpr (.inr hmem), hpath⟩

end Registry

end ResumableUpload
