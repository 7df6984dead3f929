import ResumableUpload.Registry
import Mathlib.Algebra.BigOperators.Group.List.Basic
import Mathlib.Algebra.Ring.Nat

/-
  Totals — figures summed over the uploads in progress

  A figure of the registry, such as the slots in use, is a sum over its
  records: each record weighs something, and the figure is the weight of all.
  A change of the registry touches one record, so it moves a figure by the
  weight of that record.

  What is proved:
    1. `total_modify`, `total_remove`, `total_register` — what each change of
       the registry makes of a total.
    2. `writingCount_eq` — the slots in use are a total.
-/

namespace ResumableUpload

namespace Registry

/-- The weight of all records. -/
def total (weight : Record → Nat) (g : Registry) : Nat := (g.records.map weight).sum

theorem writingCount_eq (g : Registry) : g.writingCount = g.total fun r => r.writing.toNat := by
  unfold writingCount total
  induction g.records with
  | nil => rfl
  | cons r rest ih =>
    rw [List.countP_cons, List.map_cons, List.sum_cons, ih]
    cases r.writing <;> simp [Nat.add_comm]

theorem sum_map_at {weight : Record → Nat} {path : String} {r : Record} {change : Record → Record} :
    ∀ {l : List Record}, (l.Pairwise fun a b => a.path < b.path) → r ∈ l → r.path = path →
      ((l.map fun s => if s.path = path then change s else s).map weight).sum + weight r =
        (l.map weight).sum + weight (change r) := by
  intro l
  induction l with
  | nil =>
    intro _ hr _
    cases hr
  | cons s rest ih =>
    intro hl hr hpath
    rw [List.pairwise_cons] at hl
    simp only [List.map_cons, List.sum_cons]
    rcases List.mem_cons.mp hr with rfl | hr
    · -- no record behind has this path
      have hsame : (rest.map fun s => if s.path = path then change s else s) = rest := by
        conv_rhs => rw [← List.map_id rest]
        apply List.map_congr_left
        intro t ht
        have hlt := hl.1 t ht
        rw [hpath] at hlt
        rw [if_neg (Ne.symm (Std.ne_of_lt hlt)), id]
      rw [hsame, if_pos hpath]
      omega
    · have hlt := hl.1 r hr
      rw [hpath] at hlt
      have ih := ih hl.2 hr hpath
      rw [if_neg (Std.ne_of_lt hlt)]
      omega

theorem total_modify {g : Registry} {path : String} {r : Record} (weight : Record → Nat)
    (h : g.find? path = some r) (change : Record → Record)
    (keeps : ∀ s, (change s).path = s.path) :
    (g.modify path change keeps).total weight + weight r = g.total weight + weight (change r) := by
  obtain ⟨hmem, hpath⟩ := find?_eq_some_iff.mp h
  exact sum_map_at g.sorted hmem hpath

theorem writingCount_modify {g : Registry} {path : String} {r : Record}
    (h : g.find? path = some r) (change : Record → Record)
    (keeps : ∀ s, (change s).path = s.path) :
    (g.modify path change keeps).writingCount + r.writing.toNat =
      g.writingCount + (change r).writing.toNat := by
  rw [writingCount_eq, writingCount_eq]
  exact total_modify _ h change keeps

theorem writingCount_modify_of_same {g : Registry} {path : String} {r : Record}
    (h : g.find? path = some r) (change : Record → Record) (keeps : ∀ s, (change s).path = s.path)
    (hsame : (change r).writing = r.writing) :
    (g.modify path change keeps).writingCount = g.writingCount := by
  have hcount := writingCount_modify h change keeps
  rw [hsame] at hcount
  exact Nat.add_right_cancel hcount

theorem sum_filter_at {weight : Record → Nat} {path : String} {r : Record} :
    ∀ {l : List Record}, (l.Pairwise fun a b => a.path < b.path) → r ∈ l → r.path = path →
      ((l.filter fun s => s.path ≠ path).map weight).sum + weight r = (l.map weight).sum := by
  intro l
  induction l with
  | nil =>
    intro _ hr _
    cases hr
  | cons s rest ih =>
    intro hl hr hpath
    rw [List.pairwise_cons] at hl
    rcases List.mem_cons.mp hr with rfl | hr
    · have hsame : (rest.filter fun s => s.path ≠ path) = rest := by
        apply List.filter_eq_self.mpr
        intro t ht
        have hlt := hl.1 t ht
        rw [hpath] at hlt
        exact decide_eq_true (Ne.symm (Std.ne_of_lt hlt))
      rw [List.filter_cons_of_neg (by simp [hpath]), hsame, List.map_cons, List.sum_cons]
      omega
    · have hlt := hl.1 r hr
      rw [hpath] at hlt
      have ih := ih hl.2 hr hpath
      have hkeep : decide (s.path ≠ path) = true := decide_eq_true (Std.ne_of_lt hlt)
      rw [List.filter_cons, if_pos hkeep, List.map_cons, List.map_cons, List.sum_cons, List.sum_cons]
      omega

theorem total_remove {g : Registry} {path : String} {r : Record} (weight : Record → Nat)
    (h : g.find? path = some r) : (g.remove path).total weight + weight r = g.total weight := by
  obtain ⟨hmem, hpath⟩ := find?_eq_some_iff.mp h
  exact sum_filter_at g.sorted hmem hpath

theorem sum_insertByPath (weight : Record → Nat) (r : Record) (l : List Record) :
    ((insertByPath r l).map weight).sum = weight r + (l.map weight).sum := by
  induction l with
  | nil => simp [insertByPath]
  | cons s rest ih =>
    unfold insertByPath
    split
    · simp
    · simp only [List.map_cons, List.sum_cons, ih]
      omega

theorem total_register {g next : Registry} {path clientPath : String} {size : Nat} {owner : Int}
    {t : Ticket} (weight : Record → Nat) (h : g.register path size owner clientPath = .ok (next, t)) :
    next.total weight =
      g.total weight + weight (Record.new g.nextId path size owner clientPath) := by
  unfold register at h
  split at h
  · cases h
  · cases h
    show ((insertByPath _ g.records).map weight).sum = _
    rw [sum_insertByPath, Nat.add_comm]
    rfl

end Registry

end ResumableUpload
